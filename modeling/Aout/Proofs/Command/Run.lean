import Aout.Command.Run
import Aout.Proofs.Files.Disk
import Aout.Proofs.Files.Reading
import Aout.Proofs.Standard.Spelling
/-!
What a run does to the disk. A run asks for one change of the disk at most (`Invocation.Makes`): the
objects and settings are those of the files that it finds, and all of them are read before anything
is written. So the disk stays as it is unless everything that the command line asks for succeeds,
and then it differs in the one file that was asked for (`run_all_or_nothing`). That holds however
settings documents are read, and for every reader of command lines that is lawful.
-/

set_option autoImplicit false
set_option relaxedAutoImplicit false

namespace Aout

/-- The disk once some bytes were saved under a path, or nothing was. -/
def Disk.Saves (disk : Disk) : Option (String × List UInt8) → Disk → Prop
  | none, after => after = disk
  | some (path, bytes), after => disk.write path bytes = .ok after

namespace Command

/-- What an invocation saves, and under which path, given the disk. -/
inductive Invocation.Makes (readers : Readers) (disk : Disk) :
    Invocation → Option (String × List UInt8) → Prop
  | link {inputs : List String} {output? : Option String} {base? : Option UInt16}
      {settingsPath : String} {settings : Settings} {objects : List Object} {image : Object}
      {notices : List Notice}
      (hsettings : Disk.HasSettings readers.settings disk settingsPath settings)
      (hobjects : List.Forall₂ disk.HasObject inputs objects)
      (hlink : Aout.link objects (base?.getD settings.baseAddress) settings.entrySymbol =
        .ok (image, notices)) :
      Makes readers disk (.link inputs output? base? settingsPath)
        (some (output?.getD settings.output, image.encode))
  | report {input : String} {selection : Report.Selection} {all : Bool} {object : Object}
      (hobject : disk.HasObject input object) :
      Makes readers disk (.report input selection all) none
  | strip {input : String} {all relocations : Bool} {output? : Option String}
      {settingsPath : String} {settings : Settings} {object stripped : Object}
      (hsettings : Disk.HasSettings readers.settings disk settingsPath settings)
      (hobject : disk.HasObject input object)
      (hstrip : (object.strip (all || relocations)).result = .ok stripped) :
      Makes readers disk (.strip input all relocations output? settingsPath)
        (some (output?.getD settings.output, stripped.encode))

variable {readers : Readers} {disk : Disk}

/-! ### Plans -/

/-- What a deed saves, and under which path. -/
def Deed.saved? : Deed → Option (String × List UInt8)
  | .print _ => none
  | .save path bytes _ => some (path, bytes)

theorem run_planLink (readers : Readers) (disk : Disk) (inputs : List String)
    (output? : Option String) (base? : Option UInt16) (settingsPath : String) :
    Id.run (Invocation.planLink readers disk.files inputs output? base? settingsPath) =
      match Id.run (Settings.load readers.settings disk.files settingsPath) with
      | .error fault => ⟨[], .error (.settings settingsPath fault)⟩
      | .ok (settings, notices) =>
        match Id.run (Object.readAll disk.files inputs) with
        | .error (path, fault) => ⟨notices, .error (.input path fault)⟩
        | .ok objects =>
          match Aout.link objects (base?.getD settings.baseAddress) settings.entrySymbol with
          | .error fault => ⟨notices, .error (.link fault)⟩
          | .ok (image, more) => ⟨notices ++ more, .ok (.save (output?.getD settings.output)
              image.encode (.imageWritten (output?.getD settings.output)))⟩ := rfl

theorem planLink_eq_ok_iff {inputs : List String} {output? : Option String} {base? : Option UInt16}
    {settingsPath : String} {saved? : Option (String × List UInt8)} :
    (∃ deed, (Id.run (Invocation.planLink readers disk.files inputs output? base?
      settingsPath)).outcome = .ok deed ∧ deed.saved? = saved?) ↔
      Invocation.Makes readers disk (.link inputs output? base? settingsPath) saved? := by
  rw [run_planLink]
  constructor
  · rintro ⟨deed, hdeed, rfl⟩
    split at hdeed
    · cases hdeed
    rename_i settings notices hload
    split at hdeed
    · cases hdeed
    rename_i objects hobjects
    split at hdeed
    · cases hdeed
    rename_i image more hlink
    obtain rfl := Except.ok.inj hdeed
    exact .link (Settings.load_eq_ok_iff.mp ⟨notices, hload⟩) (Object.readAll_eq_ok_iff.mp hobjects)
      hlink
  · rintro (⟨hsettings, hobjects, hlink⟩)
    obtain ⟨notices, hload⟩ := Settings.load_eq_ok_iff.mpr hsettings
    rw [hload]
    dsimp only
    rw [Object.readAll_eq_ok_iff.mpr hobjects]
    dsimp only
    rw [hlink]
    exact ⟨_, rfl, rfl⟩

theorem run_planReport (disk : Disk) (input : String) (selection : Report.Selection) :
    Id.run (Invocation.planReport disk.files input selection) =
      match Id.run (Object.read disk.files input) with
      | .error fault => ⟨[], .error (.input input fault)⟩
      | .ok object => ⟨[], .ok (.print (Aout.report object selection))⟩ := rfl

theorem planReport_eq_ok_iff {input : String} {selection shown : Report.Selection} {all : Bool}
    {saved? : Option (String × List UInt8)} :
    (∃ deed, (Id.run (Invocation.planReport disk.files input shown)).outcome = .ok deed ∧
      deed.saved? = saved?) ↔
      Invocation.Makes readers disk (.report input selection all) saved? := by
  rw [run_planReport]
  constructor
  · rintro ⟨deed, hdeed, rfl⟩
    split at hdeed
    · cases hdeed
    rename_i object hobject
    obtain rfl := Except.ok.inj hdeed
    exact .report (Object.read_eq_ok_iff.mp hobject)
  · rintro (- | hobject)
    rw [Object.read_eq_ok_iff.mpr hobject]
    exact ⟨_, rfl, rfl⟩

theorem run_planStrip (readers : Readers) (disk : Disk) (input : String) (relocationsToo : Bool)
    (output? : Option String) (settingsPath : String) :
    Id.run (Invocation.planStrip readers disk.files input relocationsToo output? settingsPath) =
      match Id.run (Settings.load readers.settings disk.files settingsPath) with
      | .error fault => ⟨[], .error (.settings settingsPath fault)⟩
      | .ok (settings, notices) =>
        match Id.run (Object.read disk.files input) with
        | .error fault => ⟨notices, .error (.input input fault)⟩
        | .ok object =>
          match (object.strip relocationsToo).result with
          | .error fault => ⟨notices, .error (.strip input fault)⟩
          | .ok stripped => ⟨notices, .ok (.save (output?.getD settings.output)
              stripped.encode (.strippedWritten (output?.getD settings.output)))⟩ := rfl

theorem planStrip_eq_ok_iff {input : String} {all relocations : Bool} {output? : Option String}
    {settingsPath : String} {saved? : Option (String × List UInt8)} :
    (∃ deed, (Id.run (Invocation.planStrip readers disk.files input (all || relocations) output?
      settingsPath)).outcome = .ok deed ∧ deed.saved? = saved?) ↔
      Invocation.Makes readers disk (.strip input all relocations output? settingsPath) saved? := by
  rw [run_planStrip]
  constructor
  · rintro ⟨deed, hdeed, rfl⟩
    split at hdeed
    · cases hdeed
    rename_i settings notices hload
    split at hdeed
    · cases hdeed
    rename_i object hobject
    split at hdeed
    · cases hdeed
    rename_i stripped hstrip
    obtain rfl := Except.ok.inj hdeed
    exact .strip (Settings.load_eq_ok_iff.mp ⟨notices, hload⟩) (Object.read_eq_ok_iff.mp hobject)
      hstrip
  · rintro (- | - | ⟨hsettings, hobject, hstrip⟩)
    obtain ⟨notices, hload⟩ := Settings.load_eq_ok_iff.mpr hsettings
    rw [hload]
    dsimp only
    rw [Object.read_eq_ok_iff.mpr hobject]
    dsimp only
    rw [hstrip]
    exact ⟨_, rfl, rfl⟩

/-- A plan ends in a deed exactly when everything that it needs is there. -/
theorem plan_eq_ok_iff {invocation : Invocation} {saved? : Option (String × List UInt8)} :
    (∃ deed, (Id.run (invocation.plan readers disk.files)).outcome = .ok deed ∧
      deed.saved? = saved?) ↔ invocation.Makes readers disk saved? := by
  cases invocation with
  | link => exact planLink_eq_ok_iff
  | report => exact planReport_eq_ok_iff
  | strip => exact planStrip_eq_ok_iff

/-- The disk decides what an invocation saves. -/
theorem Invocation.Makes.unique {invocation : Invocation}
    {first? second? : Option (String × List UInt8)} (hfirst : invocation.Makes readers disk first?)
    (hsecond : invocation.Makes readers disk second?) : first? = second? := by
  obtain ⟨deed, hdeed, rfl⟩ := plan_eq_ok_iff.mpr hfirst
  obtain ⟨other, hother, rfl⟩ := plan_eq_ok_iff.mpr hsecond
  rw [Except.ok.inj (hdeed.symm.trans hother)]

/-! ### Runs -/

variable {plan : Plan}

/-- Only a deed that is done changes the disk. -/
theorem disk_carryOut (hending : (plan.carryOut disk).ending ≠ .done) :
    (plan.carryOut disk).disk = disk := by
  unfold Plan.carryOut at hending ⊢
  split
  · rfl
  · rfl
  · split
    · rfl
    · rename_i hsave _ _ hwrite
      rw [hsave] at hending
      dsimp only at hending
      rw [hwrite] at hending
      exact absurd rfl hending

theorem carryOut_eq_done_iff {after : Disk} :
    ((plan.carryOut disk).ending = .done ∧ (plan.carryOut disk).disk = after) ↔
      ∃ deed, plan.outcome = .ok deed ∧ disk.Saves deed.saved? after := by
  unfold Plan.carryOut
  cases plan.outcome with
  | error failure => simp
  | ok deed =>
    cases deed with
    | print text => simp [Deed.saved?, Disk.Saves, eq_comm]
    | save path bytes notice =>
      cases hwrite : disk.write path bytes with
      | error fault => simp [Deed.saved?, Disk.Saves, hwrite]
      | ok written => simp [Deed.saved?, Disk.Saves, hwrite]

theorem run_eq_done_iff {arguments : List String} {after : Disk} :
    ((run readers disk arguments).ending = .done ∧ (run readers disk arguments).disk = after) ↔
      ∃ invocation saved?, readers.arguments arguments = .ok invocation ∧
        invocation.Makes readers disk saved? ∧ disk.Saves saved? after := by
  unfold run
  cases readers.arguments arguments with
  | error refusal => simp
  | ok invocation =>
    simp only [carryOut_eq_done_iff, Except.ok.injEq, ← plan_eq_ok_iff]
    constructor
    · rintro ⟨deed, houtcome, hsaves⟩
      exact ⟨invocation, _, rfl, ⟨deed, houtcome, rfl⟩, hsaves⟩
    · rintro ⟨_, _, rfl, ⟨deed, houtcome, rfl⟩, hsaves⟩
      exact ⟨deed, houtcome, hsaves⟩

theorem disk_run {arguments : List String} (hending : (run readers disk arguments).ending ≠ .done) :
    (run readers disk arguments).disk = disk := by
  unfold run at hending ⊢
  split at hending
  · rfl
  · exact disk_carryOut hending

/-- The command line is all or nothing. A run that does not end well leaves the disk as it is, and
so does every report. A run ends well exactly when all that its invocation needs is there and can be
saved. Then the one change is the file that is saved under the path asked for; what it holds is made
of the files that were there before, the inputs of a link in the order of the command line. A
command line that is spelled out asks for what it says. -/
theorem run_all_or_nothing {readers : Readers} (hreaders : readers.Lawful) (disk : Disk)
    (arguments : List String) :
    ((run readers disk arguments).ending.exitCode ≠ 0 →
      (run readers disk arguments).disk = disk) ∧
    (∀ refusal, (run readers disk arguments).ending = .refused refusal →
      (run readers disk arguments).disk = disk) ∧
    (arguments.head? = some "dumpbin" → (run readers disk arguments).disk = disk) ∧
    (∀ after, ((run readers disk arguments).ending = .done ∧
        (run readers disk arguments).disk = after) ↔
      ∃ invocation saved?, readers.arguments arguments = .ok invocation ∧
        arguments.head? = some invocation.word ∧ invocation.inputs.Sublist arguments ∧
        invocation.Makes readers disk saved? ∧ disk.Saves saved? after) ∧
    (∀ invocation path bytes, readers.arguments arguments = .ok invocation →
      invocation.Makes readers disk (some (path, bytes)) →
      (run readers disk arguments).ending = .done →
      disk.Rewritten path bytes (run readers disk arguments).disk) ∧
    ∀ invocation, Invocation.Spelled arguments invocation → ∀ after,
      ((run readers disk arguments).ending = .done ∧ (run readers disk arguments).disk = after) ↔
        ∃ saved?, invocation.Makes readers disk saved? ∧ disk.Saves saved? after := by
  refine ⟨fun hexit ↦ disk_run ?_, fun refusal hending ↦ disk_run ?_, fun hreport ↦ ?_,
    fun after ↦ ?_, fun invocation path bytes harguments hmakes hending ↦ ?_,
    fun invocation hspelled after ↦ ?_⟩
  · intro hending
    rw [hending] at hexit
    exact hexit rfl
  · rw [hending]
    exact Ending.noConfusion
  · by_cases hending : (run readers disk arguments).ending = .done
    · obtain ⟨invocation, saved?, harguments, hmakes, hsaves⟩ := run_eq_done_iff.mp ⟨hending, rfl⟩
      have hword := hreport.symm.trans (hreaders.word _ _ harguments)
      cases hmakes with
      | link => exact absurd hword (by simp [Invocation.word])
      | report => exact hsaves
      | strip => exact absurd hword (by simp [Invocation.word])
    · exact disk_run hending
  · rw [run_eq_done_iff]
    constructor
    · rintro ⟨invocation, saved?, harguments, hmade⟩
      exact ⟨invocation, saved?, harguments, hreaders.word _ _ harguments,
        hreaders.inputs _ _ harguments, hmade⟩
    · rintro ⟨invocation, saved?, harguments, -, -, hmade⟩
      exact ⟨invocation, saved?, harguments, hmade⟩
  · obtain ⟨found, saved?, hfound, hmade, hsaves⟩ := run_eq_done_iff.mp ⟨hending, rfl⟩
    obtain rfl := Except.ok.inj (harguments.symm.trans hfound)
    obtain rfl := hmakes.unique hmade
    exact Disk.rewritten_of_write hsaves
  · have harguments := hreaders.spelled _ _ hspelled
    rw [run_eq_done_iff]
    constructor
    · rintro ⟨found, saved?, hfound, hmade⟩
      obtain rfl := Except.ok.inj (harguments.symm.trans hfound)
      exact ⟨saved?, hmade⟩
    · rintro ⟨saved?, hmade⟩
      exact ⟨invocation, saved?, harguments, hmade⟩

/-- A disk with one object on it. -/
def objectDisk : Disk := ⟨[(["a.o"], Object.empty.encode)], []⟩

/-- Linking one object in its own place, and linking one that is not there. -/
theorem run_all_or_nothing_single :
    Readers.standard.Lawful ∧
    (∃ bytes, objectDisk.Rewritten "a.o" bytes
      (run .standard objectDisk ["ln", "a.o", "-o", "a.o"]).disk) ∧
    (run .standard objectDisk ["ln", "b.o"]).disk = objectDisk := by
  refine ⟨Readers.lawful_standard, ?_, ?_⟩
  · have hall := run_all_or_nothing Readers.lawful_standard objectDisk ["ln", "a.o", "-o", "a.o"]
    have hdone : (run .standard objectDisk ["ln", "a.o", "-o", "a.o"]).ending = .done := by
      decide +kernel
    have hplain : IsPlain "a.o" := ⟨'a', ['.', 'o'], rfl, by decide⟩
    have hspelled : Invocation.Spelled ["ln", "a.o", "-o", "a.o"]
        (.link ["a.o"] (some "a.o") none "config.yml") :=
      @Invocation.Spelled.link ["a.o"] (some "a.o") none none none (by simp) (by simpa using hplain)
        rfl
    obtain ⟨saved?, hmakes, hsaves⟩ := (hall.2.2.2.2.2 _ hspelled _).mp ⟨hdone, rfl⟩
    have hlink := Readers.lawful_standard.spelled _ _ hspelled
    cases hmakes with
    | link hsettings hobjects himage =>
      exact ⟨_, hall.2.2.2.2.1 _ _ _ hlink (.link hsettings hobjects himage) hdone⟩
  · exact (run_all_or_nothing Readers.lawful_standard objectDisk ["ln", "b.o"]).1
      (by decide +kernel)

end Command

end Aout
