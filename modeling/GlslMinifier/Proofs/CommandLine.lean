/-
  GlslMinifier.Proofs.CommandLine — what a run of the program comes to.

  Five things may stand in the way of a run, in two files and in the arguments, and several
  of them at once.  Each is described here for itself (`Obstacle`); they are ranked, and a
  run fails for the first of them.  What the program writes and which code it exits with is
  told for a system in memory, which also records the files that are looked at.

  Nothing is asked of the library that reads the options: whatever it refuses stands in the
  way, and its words on the reason are printed as they are.

  Main results:
    * `decided_run` — a run fails for the first of its obstacles, or answers if it has none
    * `run_eq_error_iff`, `run_eq_ok_iff` — and it comes to nothing else
    * `runLooking_world`, `program_world` — what the program does to the system
    * `program_answers_first_obstacle` — what a run comes to, and what it depends on
-/
import GlslMinifier.CommandLine.Program
import GlslMinifier.Proofs.Validation

namespace GlslMinifier

variable {format : OptionsFormat} {read : String → Except ReadFault String}

/-! ## §1. Obstacles. -/

/-- The things that a run may fail for, in the order in which they count. -/
inductive Stage
  | arguments
  | configFile
  | configText
  | shaderFile
  | names
  deriving DecidableEq, Repr

def Stage.rank : Stage → Nat
  | .arguments => 0
  | .configFile => 1
  | .configText => 2
  | .shaderFile => 3
  | .names => 4

/-- The failure of a run that cannot read the file at `path`. -/
inductive Unread (read : String → Except ReadFault String) (path : String) : Failure → Prop
  | missing : read path = .error .notFound → Unread read path (.fileNotFound path)
  | refused {reason : String} : read path = .error (.refused reason) →
      Unread read path (.unreadable path reason)
  | notText : read path = .error .notText →
      Unread read path (.unreadable path "stream did not contain valid UTF-8")

/-- Something that stands in the way of a run, whatever else may do so, and the failure of
    the run if nothing before it does. -/
inductive Obstacle (format : OptionsFormat) (read : String → Except ReadFault String) :
    List String → Stage → Failure → Prop
  /-- The arguments are neither one nor two. -/
  | arguments {args : List String} : args.length ≠ 1 → args.length ≠ 2 →
      Obstacle format read args .arguments .usage
  | configFile {shader config : String} {e : Failure} : Unread read config e →
      Obstacle format read [shader, config] .configFile e
  /-- The options file does not give options. -/
  | configText {shader config text cause : String} : read config = .ok text →
      format.read text = .error cause →
      Obstacle format read [shader, config] .configText (.invalidConfig config cause)
  | shaderFile {shader : String} {others : List String} {e : Failure} : others.length ≤ 1 →
      Unread read shader e → Obstacle format read (shader :: others) .shaderFile e
  /-- A name that the options preserve is no identifier, and none before it is. -/
  | names {shader config text name : String} {options : Options} : read config = .ok text →
      format.read text = .ok options → IsFirstMisspelled options.preserveNames name →
      Obstacle format read [shader, config] .names (.invalidName ⟨name⟩)

/-- No obstacle counts before this one. -/
def IsFirstObstacle (format : OptionsFormat) (read : String → Except ReadFault String)
    (args : List String) (e : Failure) : Prop :=
  ∃ stage, Obstacle format read args stage e
    ∧ ∀ other e', Obstacle format read args other e' → stage.rank ≤ other.rank

/-- The options of a run: those that its second file gives, or else the defaults. -/
inductive HasOptions (format : OptionsFormat) (read : String → Except ReadFault String) :
    Option String → Options → Prop
  | default : HasOptions format read none ⟨none, none, [], none⟩
  | given {config text : String} {options : Options} : read config = .ok text →
      format.read text = .ok options → HasOptions format read (some config) options

/-- What a run gives that nothing stands in the way of. -/
def Answers (format : OptionsFormat) (read : String → Except ReadFault String)
    (args : List String) (content : String) : Prop :=
  ∃ shader config options text result, args = shader :: Option.toList config
    ∧ HasOptions format read config options ∧ read shader = .ok text
    ∧ minify options [] text = .ok result ∧ content = result.content

theorem unread_iff {path : String} {e : Failure} :
    Unread read path e ↔ ∃ fault, read path = .error fault ∧ e = .ofReadFault path fault := by
  constructor
  · intro h
    cases h with
    | missing h => exact ⟨_, h, rfl⟩
    | refused h => exact ⟨_, h, rfl⟩
    | notText h => exact ⟨_, h, rfl⟩
  · rintro ⟨fault, h, rfl⟩
    cases fault with
    | notFound => exact .missing h
    | refused reason => exact .refused h
    | notText => exact .notText h

/-! ## §2. Runs on files. -/

theorem run_bind {α β : Type} (x : ExceptT Failure Id α) (f : α → ExceptT Failure Id β) :
    Id.run (x >>= f).run = (Id.run x.run >>= fun a => Id.run (f a).run) := by
  show Id.run (ExceptT.bindCont f x) = _
  cases x with
  | error e => rfl
  | ok a => rfl

/-- What is left of a run once it has its options. -/
def runWith (read : String → Except ReadFault String) (options : Options) (shader : String) :
    Except Failure String := do
  let text ← (read shader).mapError (Failure.ofReadFault shader)
  let result ← (minify options [] text).mapError Failure.invalidName
  return result.content

theorem run_single (shader : String) : format.run read [shader] = runWith read .default shader := by
  show Id.run (ExceptT.run (do
    let options ← readConfig format (fun path => pure (read path)) none
    let text ← readNamed (fun path => pure (read path)) shader
    let result ← settled ((minify options [] text).mapError Failure.invalidName)
    settled (.ok result.content))) = _
  simp only [run_bind]
  rfl

/-- The options that a file gives. -/
def optionsIn (format : OptionsFormat) (read : String → Except ReadFault String)
    (config : String) : Except Failure Options := do
  let text ← (read config).mapError (Failure.ofReadFault config)
  (format.read text).mapError (Failure.invalidConfig config)

theorem run_pair (shader config : String) : format.run read [shader, config] = (do
    let options ← optionsIn format read config
    runWith read options shader) := by
  show Id.run (ExceptT.run (do
    let options ← readConfig format (fun path => pure (read path)) (some config)
    let text ← readNamed (fun path => pure (read path)) shader
    let result ← settled ((minify options [] text).mapError Failure.invalidName)
    settled (.ok result.content))) = _
  simp only [run_bind, readConfig]
  rfl

theorem optionsIn_of_read {config text : String} (h : read config = .ok text) :
    optionsIn format read config
      = (format.read text).mapError (Failure.invalidConfig config) := by
  unfold optionsIn
  rw [h]
  rfl

theorem optionsIn_of_fault {config : String} {fault : ReadFault}
    (h : read config = .error fault) :
    optionsIn format read config = .error (.ofReadFault config fault) := by
  unfold optionsIn
  rw [h]
  rfl

theorem runWith_of_read {shader text : String} (options : Options)
    (h : read shader = .ok text) :
    runWith read options shader
      = ((minify options [] text).mapError Failure.invalidName >>= fun result =>
        pure result.content) := by
  unfold runWith
  rw [h]
  rfl

/-- A run that has its options cannot read the shader, or its options are refused, or it
    minifies the shader. -/
theorem runWith_cases (options : Options) (shader : String) :
    (∃ fault, read shader = .error fault
        ∧ runWith read options shader = .error (.ofReadFault shader fault))
      ∨ ∃ text, read shader = .ok text
        ∧ ((∃ name, IsFirstMisspelled options.preserveNames name
            ∧ runWith read options shader = .error (.invalidName ⟨name⟩))
          ∨ (∀ name, ¬ IsFirstMisspelled options.preserveNames name)
            ∧ ∃ result, minify options [] text = .ok result
              ∧ runWith read options shader = .ok result.content) := by
  cases hshader : read shader with
  | error fault =>
    refine .inl ⟨fault, rfl, ?_⟩
    unfold runWith
    rw [hshader]
    rfl
  | ok text =>
    refine .inr ⟨text, rfl, ?_⟩
    rw [runWith_of_read options hshader]
    cases hresult : minify options [] text with
    | error e =>
      exact .inl ⟨e.name, invalidName?_eq_some_iff.1 (minify_eq_error_iff.1 hresult), rfl⟩
    | ok result =>
      refine .inr ⟨fun name hname => ?_, result, rfl, rfl⟩
      -- a run with a misspelled name is refused
      have herror : minify options [] text = .error ⟨name⟩ :=
        minify_eq_error_iff.2 (invalidName?_eq_some_iff.2 hname)
      rw [hresult] at herror
      cases herror

/-! ## §3. The first obstacle. -/

/-- Each thing that stands in the way is worth one failure. -/
theorem Unread.unique {path : String} {e e' : Failure} (h : Unread read path e)
    (h' : Unread read path e') : e = e' := by
  obtain ⟨fault, hread, rfl⟩ := unread_iff.1 h
  obtain ⟨fault', hread', rfl⟩ := unread_iff.1 h'
  rw [hread] at hread'
  rw [Except.error.inj hread']

theorem isFirstMisspelled_unique {names : List String} {name name' : String}
    (h : IsFirstMisspelled names name) (h' : IsFirstMisspelled names name') : name = name' := by
  have hinvalid : ∀ n, IsFirstMisspelled names n →
      Options.invalidName? ⟨none, none, names, none⟩ = some ⟨n⟩ :=
    fun n hn => invalidName?_eq_some_iff.2 hn
  have heq := (hinvalid name h).symm.trans (hinvalid name' h')
  exact congrArg InvalidName.name (Option.some.inj heq)

/-- A file is read in one way, and its text gives options or a fault, not both. -/
theorem parse_unique {config text text' : String} {outcome outcome' : Except String Options}
    (htext : read config = .ok text) (h : format.read text = outcome)
    (htext' : read config = .ok text') (h' : format.read text' = outcome') :
    outcome = outcome' := by
  rw [htext] at htext'
  obtain rfl := Except.ok.inj htext'
  exact h.symm.trans h'

theorem Obstacle.unique {args : List String} {stage : Stage} {e e' : Failure}
    (h : Obstacle format read args stage e) (h' : Obstacle format read args stage e') :
    e = e' := by
  cases h with
  | arguments _ _ =>
    cases h' with
    | arguments _ _ => rfl
  | configFile hconfig =>
    cases h' with
    | configFile hconfig' => exact hconfig.unique hconfig'
  | configText htext hparse =>
    cases h' with
    | configText htext' hparse' =>
      rw [Except.error.inj (parse_unique htext hparse htext' hparse')]
  | shaderFile _ hshader =>
    cases h' with
    | shaderFile _ hshader' => exact hshader.unique hshader'
  | names htext hparse hname =>
    cases h' with
    | names htext' hparse' hname' =>
      obtain rfl := Except.ok.inj (parse_unique htext hparse htext' hparse')
      rw [isFirstMisspelled_unique hname hname']

theorem Stage.rank_injective {stage other : Stage} (h : stage.rank = other.rank) :
    stage = other := by
  cases stage <;> cases other <;> simp_all [Stage.rank]

theorem IsFirstObstacle.unique {args : List String} {e e' : Failure}
    (h : IsFirstObstacle format read args e) (h' : IsFirstObstacle format read args e') :
    e = e' := by
  obtain ⟨stage, hobstacle, hfirst⟩ := h
  obtain ⟨stage', hobstacle', hfirst'⟩ := h'
  have hle := hfirst stage' e' hobstacle'
  have hge := hfirst' stage e hobstacle
  obtain rfl := Stage.rank_injective (Nat.le_antisymm hle hge)
  exact hobstacle.unique hobstacle'

/-- What a run comes to: the failure of its first obstacle, or without one its answer. -/
def Decided (format : OptionsFormat) (read : String → Except ReadFault String)
    (args : List String) : Except Failure String → Prop
  | .error e => IsFirstObstacle format read args e
  | .ok content =>
    (∀ stage e, ¬ Obstacle format read args stage e) ∧ Answers format read args content

theorem not_unread_of_read {path text : String} (h : read path = .ok text) (e : Failure) :
    ¬ Unread read path e := by
  intro hunread
  obtain ⟨fault, hfault, -⟩ := unread_iff.1 hunread
  rw [h] at hfault
  cases hfault

theorem decided_single (shader : String) :
    Decided format read [shader] (format.run read [shader]) := by
  -- the shader file is the only obstacle that there can be
  have honly : ∀ stage e, Obstacle format read [shader] stage e →
      stage = .shaderFile ∧ Unread read shader e := by
    intro stage e h
    cases h with
    | arguments hone _ => exact absurd rfl hone
    | shaderFile _ hshader => exact ⟨rfl, hshader⟩
  rw [run_single]
  rcases runWith_cases .default shader with ⟨fault, hread, hrun⟩ | ⟨text, hread, hrun⟩
  · rw [hrun]
    refine ⟨.shaderFile, .shaderFile (Nat.zero_le 1) (unread_iff.2 ⟨fault, hread, rfl⟩), ?_⟩
    intro other e' hother
    rw [(honly other e' hother).1]
  · rcases hrun with ⟨name, ⟨before, after, hnames, -⟩, -⟩ | ⟨-, result, hminify, hrun⟩
    · -- the defaults preserve no names
      cases before <;> cases hnames
    · rw [hrun]
      exact ⟨fun stage e h => not_unread_of_read hread e (honly stage e h).2, shader, none,
        .default, text, result, rfl, .default, hread, hminify, rfl⟩

/-- What may stand in the way of a run with an options file. -/
theorem obstacle_pair {shader config : String} {stage : Stage} {e : Failure}
    (h : Obstacle format read [shader, config] stage e) :
    stage = .configFile ∧ Unread read config e
      ∨ stage = .configText ∧ (∃ text fault, read config = .ok text
        ∧ format.read text = .error fault)
      ∨ stage = .shaderFile ∧ Unread read shader e
      ∨ stage = .names ∧ ∃ text options name, read config = .ok text
        ∧ format.read text = .ok options ∧ IsFirstMisspelled options.preserveNames name := by
  cases h with
  | arguments _ htwo => exact absurd rfl htwo
  | configFile hconfig => exact .inl ⟨rfl, hconfig⟩
  | configText htext hparse => exact .inr (.inl ⟨rfl, _, _, htext, hparse⟩)
  | shaderFile _ hshader => exact .inr (.inr (.inl ⟨rfl, hshader⟩))
  | names htext hparse hname => exact .inr (.inr (.inr ⟨rfl, _, _, _, htext, hparse, hname⟩))

theorem decided_pair (shader config : String) :
    Decided format read [shader, config] (format.run read [shader, config]) := by
  rw [run_pair]
  cases hconfig : read config with
  | error fault =>
    rw [optionsIn_of_fault hconfig]
    -- only wrong arguments would come before
    refine ⟨.configFile, .configFile (unread_iff.2 ⟨fault, hconfig, rfl⟩), fun other e' h => ?_⟩
    rcases obstacle_pair h with ⟨rfl, -⟩ | ⟨rfl, -⟩ | ⟨rfl, -⟩ | ⟨rfl, -⟩ <;> decide
  | ok text =>
    rw [optionsIn_of_read hconfig]
    have hread := not_unread_of_read hconfig
    cases hparse : format.read text with
    | error fault =>
      refine ⟨.configText, .configText hconfig hparse, fun other e' h => ?_⟩
      rcases obstacle_pair h with ⟨-, hunread⟩ | ⟨rfl, -⟩ | ⟨rfl, -⟩ | ⟨rfl, -⟩
      · exact absurd hunread (hread e')
      all_goals decide
    | ok options =>
      show Decided format read _ (runWith read options shader)
      -- the options file stands in the way no more
      have hlater : ∀ stage e, Obstacle format read [shader, config] stage e →
          stage = .shaderFile ∧ Unread read shader e
            ∨ stage = .names ∧ ∃ name, IsFirstMisspelled options.preserveNames name := by
        intro stage e h
        rcases obstacle_pair h with ⟨-, hunread⟩ | ⟨-, text', fault, htext, hfault⟩ | hshader
            | ⟨rfl, text', options', name, htext, hoptions, hname⟩
        · exact absurd hunread (hread e)
        · cases parse_unique hconfig hparse htext hfault
        · exact .inl hshader
        · obtain rfl := Except.ok.inj (parse_unique hconfig hparse htext hoptions)
          exact .inr ⟨rfl, name, hname⟩
      rcases runWith_cases options shader with ⟨fault, hshader, hrun⟩ | ⟨code, hshader, hrun⟩
      · rw [hrun]
        refine ⟨.shaderFile, .shaderFile (Nat.le_refl 1) (unread_iff.2 ⟨fault, hshader, rfl⟩),
          fun other e' h => ?_⟩
        rcases hlater other e' h with ⟨rfl, -⟩ | ⟨rfl, -⟩ <;> decide
      · have hunread := not_unread_of_read hshader
        rcases hrun with ⟨name, hname, hrun⟩ | ⟨hnames, result, hminify, hrun⟩
        · rw [hrun]
          refine ⟨.names, .names hconfig hparse hname, fun other e' h => ?_⟩
          rcases hlater other e' h with ⟨-, hshader'⟩ | ⟨rfl, -⟩
          · exact absurd hshader' (hunread e')
          · exact Nat.le_refl _
        · rw [hrun]
          refine ⟨fun stage e h => ?_, shader, some config, options, code, result, rfl,
            .given hconfig hparse, hshader, hminify, rfl⟩
          rcases hlater stage e h with ⟨-, hshader'⟩ | ⟨-, name, hname⟩
          · exact hunread e hshader'
          · exact hnames name hname

/-- **A run fails for its first obstacle**, or answers if it has none. -/
theorem decided_run (args : List String) :
    Decided format read args (format.run read args) := by
  have husage : args.length ≠ 1 → args.length ≠ 2 → IsFirstObstacle format read args .usage :=
    fun hone htwo => ⟨.arguments, .arguments hone htwo, fun _ _ _ => Nat.zero_le _⟩
  match args with
  | [] => exact husage (by simp) (by simp)
  | [shader] => exact decided_single shader
  | [shader, config] => exact decided_pair shader config
  | _ :: _ :: _ :: _ => exact husage (by simp) (by simp)

theorem run_eq_error_iff {args : List String} {e : Failure} :
    format.run read args = .error e ↔ IsFirstObstacle format read args e := by
  have hdecided : Decided format read args (format.run read args) := decided_run args
  constructor
  · intro hrun
    rw [hrun] at hdecided
    exact hdecided
  · intro hfirst
    cases hrun : format.run read args with
    | error e' =>
      rw [hrun] at hdecided
      rw [IsFirstObstacle.unique hdecided hfirst]
    | ok content =>
      rw [hrun] at hdecided
      obtain ⟨stage, hobstacle, -⟩ := hfirst
      exact absurd hobstacle (hdecided.1 stage e)

theorem HasOptions.unique {config : Option String} {options options' : Options}
    (h : HasOptions format read config options) (h' : HasOptions format read config options') :
    options = options' := by
  cases h with
  | default =>
    cases h' with
    | default => rfl
  | given htext hparse =>
    cases h' with
    | given htext' hparse' => exact Except.ok.inj (parse_unique htext hparse htext' hparse')

theorem Answers.unique {args : List String} {content content' : String}
    (h : Answers format read args content) (h' : Answers format read args content') :
    content = content' := by
  obtain ⟨shader, config, options, text, result, hargs, hoptions, hread, hminify, rfl⟩ := h
  obtain ⟨shader', config', options', text', result', hargs', hoptions', hread', hminify', rfl⟩ :=
    h'
  rw [hargs] at hargs'
  obtain ⟨rfl, hconfig⟩ := List.cons.inj hargs'
  obtain rfl : config = config' := by
    cases config <;> cases config' <;> simp_all
  rw [hread] at hread'
  obtain rfl := Except.ok.inj hread'
  obtain rfl := hoptions.unique hoptions'
  rw [hminify] at hminify'
  rw [Except.ok.inj hminify']

theorem run_eq_ok_iff {args : List String} {content : String} :
    format.run read args = .ok content
      ↔ (∀ stage e, ¬ Obstacle format read args stage e) ∧ Answers format read args content := by
  have hdecided : Decided format read args (format.run read args) := decided_run args
  constructor
  · intro hrun
    rw [hrun] at hdecided
    exact hdecided
  · rintro ⟨hnone, hanswers⟩
    cases hrun : format.run read args with
    | error e =>
      rw [hrun] at hdecided
      obtain ⟨stage, hobstacle, -⟩ := hdecided
      exact absurd hobstacle (hnone stage e)
    | ok content' =>
      rw [hrun] at hdecided
      rw [hdecided.2.unique hanswers]

/-! ## §4. What the program does to the system. -/

/-- A system in memory. -/
structure World where
  files : String → Except ReadFault String
  /-- What has been written to standard output. -/
  output : String
  /-- The files that have been looked at, in order. -/
  looked : List String

namespace World

def look (path : String) : StateM World (Except ReadFault String) := fun w =>
  (w.files path, { w with looked := w.looked ++ [path] })

/-- A system in memory that never fails to write. -/
def host : Host (StateM World) where
  look := look
  write text := fun w => (.ok (), { w with output := w.output ++ text })
  warn _ := pure ()

end World

/-- The files that a run looks at, in order: the shader only once it has its options. -/
def lookedAt (format : OptionsFormat) (read : String → Except ReadFault String) :
    List String → List String
  | [shader] => [shader]
  | [shader, config] =>
    match optionsIn format read config with
    | .ok _ => [config, shader]
    | .error _ => [config]
  | _ => []

theorem lookedAt_of_error {shader config : String} {e : Failure}
    (h : optionsIn format read config = .error e) :
    lookedAt format read [shader, config] = [config] := by
  unfold lookedAt
  simp only [h]

theorem lookedAt_of_ok {shader config : String} {options : Options}
    (h : optionsIn format read config = .ok options) :
    lookedAt format read [shader, config] = [config, shader] := by
  unfold lookedAt
  simp only [h]

/-- How the program ends on a run: what it writes and the code it exits with. -/
inductive EndsWith : Except Failure String → (output : String) → (code : UInt32) → Prop
  | answer (content : String) : EndsWith (.ok content) content 0
  | usage : EndsWith (.error .usage) "Usage: shmin <path_to_shader> [config.json]\n" 2
  | fileNotFound (path : String) :
      EndsWith (.error (.fileNotFound path)) ("Error: File not found [" ++ path ++ "]\n") 3
  | unreadable (path reason : String) : EndsWith (.error (.unreadable path reason))
      ("An error occurred: failed to read " ++ path ++ ": " ++ reason ++ "\n") 1
  | invalidConfig (path cause : String) : EndsWith (.error (.invalidConfig path cause))
      ("An error occurred: invalid config " ++ path ++ ": " ++ cause ++ "\n") 1
  | invalidName (name : String) : EndsWith (.error (.invalidName ⟨name⟩))
      ("An error occurred: invalid entry in \x60preserveNames\x60: \x60" ++ name
        ++ "\x60 is not a valid identifier" ++ "\n") 1

theorem message_unreadable (path reason : String) : (Failure.unreadable path reason).message
    = "An error occurred: failed to read " ++ path ++ ": " ++ reason := by
  show "An error occurred: " ++ ("failed to read " ++ path ++ ": " ++ reason) = _
  simp only [← String.append_assoc]
  rfl

theorem message_invalidConfig (path cause : String) :
    (Failure.invalidConfig path cause).message
      = "An error occurred: invalid config " ++ path ++ ": " ++ cause := by
  show "An error occurred: " ++ ("invalid config " ++ path ++ ": " ++ cause) = _
  simp only [← String.append_assoc]
  rfl

theorem message_invalidName (error : InvalidName) : (Failure.invalidName error).message
    = "An error occurred: invalid entry in \x60preserveNames\x60: \x60" ++ error.name
      ++ "\x60 is not a valid identifier" := by
  show "An error occurred: " ++ ("invalid entry in \x60preserveNames\x60: "
    ++ ("\x60" ++ error.name ++ "\x60 is not a valid identifier")) = _
  simp only [← String.append_assoc]
  rfl

theorem endsWith_outcome (result : Except Failure String) :
    EndsWith result (Outcome.ofResult result).output
      (Outcome.ofResult result).exitCode.toUInt32 := by
  cases result with
  | ok content => exact .answer content
  | error e =>
    cases e with
    | usage => exact .usage
    | fileNotFound path =>
      show EndsWith _ ("Error: File not found [" ++ path ++ "]" ++ "\n") _
      rw [String.append_assoc]
      exact .fileNotFound path
    | unreadable path reason =>
      show EndsWith _ ((Failure.unreadable path reason).message ++ "\n") 1
      rw [message_unreadable]
      exact .unreadable path reason
    | invalidConfig path cause =>
      show EndsWith _ ((Failure.invalidConfig path cause).message ++ "\n") 1
      rw [message_invalidConfig]
      exact .invalidConfig path cause
    | invalidName error =>
      show EndsWith _ ((Failure.invalidName error).message ++ "\n") 1
      rw [message_invalidName]
      exact .invalidName error.name

theorem bind_world_ok {α β : Type} {x : ExceptT Failure (StateM World) α}
    {f : α → ExceptT Failure (StateM World) β} {w w' : World} {a : α}
    (h : x.run w = (.ok a, w')) : (x >>= f).run w = (f a).run w' := by
  show (match x.run w with | (r, s) => ExceptT.bindCont f r s) = _
  rw [h]
  rfl

theorem bind_world_error {α β : Type} {x : ExceptT Failure (StateM World) α}
    {f : α → ExceptT Failure (StateM World) β} {w w' : World} {e : Failure}
    (h : x.run w = (.error e, w')) : (x >>= f).run w = (.error e, w') := by
  show (match x.run w with | (r, s) => ExceptT.bindCont f r s) = _
  rw [h]
  rfl

theorem readNamed_world (w : World) (path : String) :
    (readNamed World.look path).run w
      = ((w.files path).mapError (Failure.ofReadFault path),
        { w with looked := w.looked ++ [path] }) := rfl

/-- What is left of a run in memory once it has its options. -/
theorem runWith_world (w : World) (options : Options) (shader : String) :
    (do
      let text ← readNamed World.look shader
      let result ← settled ((minify options [] text).mapError Failure.invalidName)
      settled (.ok result.content) : ExceptT Failure (StateM World) String).run w
      = (runWith w.files options shader, { w with looked := w.looked ++ [shader] }) := by
  cases hshader : w.files shader with
  | error fault =>
    have hread := readNamed_world w shader
    rw [hshader] at hread
    rw [bind_world_error hread]
    unfold runWith
    rw [hshader]
    rfl
  | ok text =>
    have hread := readNamed_world w shader
    rw [hshader] at hread
    rw [bind_world_ok hread, runWith_of_read options hshader]
    cases minify options [] text with
    | error e => rfl
    | ok result => rfl

theorem readConfig_world (format : OptionsFormat) (w : World) (config : String) :
    (readConfig format World.look (some config)).run w
      = (optionsIn format w.files config, { w with looked := w.looked ++ [config] }) := by
  have hread := readNamed_world w config
  unfold readConfig
  cases hconfig : w.files config with
  | error fault =>
    rw [hconfig] at hread
    rw [bind_world_error hread, optionsIn_of_fault hconfig]
  | ok text =>
    rw [hconfig] at hread
    rw [bind_world_ok hread, optionsIn_of_read hconfig]
    rfl

/-- **A run looks at the files that it names, in order, and does nothing else.** -/
theorem runLooking_world (w : World) (args : List String) :
    (runLooking format World.look args).run w
      = (format.run w.files args,
        { w with looked := w.looked ++ lookedAt format w.files args }) := by
  have husage : (settled (.error .usage) : ExceptT Failure (StateM World) String).run w
      = (.error .usage, { w with looked := w.looked ++ [] }) := by
    rw [List.append_nil]
    rfl
  match args with
  | [] => exact husage
  | [shader] =>
    rw [run_single]
    exact runWith_world w .default shader
  | [shader, config] =>
    have hread := readConfig_world format w config
    rw [run_pair]
    cases hoptions : optionsIn format w.files config with
    | error e =>
      rw [hoptions] at hread
      rw [lookedAt_of_error hoptions]
      exact bind_world_error hread
    | ok options =>
      rw [hoptions] at hread
      rw [lookedAt_of_ok hoptions, List.append_cons]
      exact (bind_world_ok hread).trans
        (runWith_world { w with looked := w.looked ++ [config] } options shader)
  | _ :: _ :: _ :: _ => exact husage

theorem program_world (w : World) (args : List String) :
    program format World.host args w
      = ((Outcome.ofResult (format.run w.files args)).exitCode.toUInt32,
        { files := w.files,
          output := w.output ++ (Outcome.ofResult (format.run w.files args)).output,
          looked := w.looked ++ lookedAt format w.files args }) := by
  show (match (runLooking format World.look args).run w with
    | (result, s) => finish World.host result s) = _
  rw [runLooking_world]
  rfl

/-! ## §5. What a run depends on. -/

/-- The options file is looked at, and the shader once there are options. -/
theorem lookedAt_pair (format : OptionsFormat) (read : String → Except ReadFault String)
    (shader config : String) :
    lookedAt format read [shader, config] = [config]
      ∨ (∃ options, optionsIn format read config = .ok options)
        ∧ lookedAt format read [shader, config] = [config, shader] := by
  cases hoptions : optionsIn format read config with
  | error e => exact .inl (lookedAt_of_error hoptions)
  | ok options => exact .inr ⟨⟨options, rfl⟩, lookedAt_of_ok hoptions⟩

theorem lookedAt_subset (args : List String) :
    ∀ path ∈ lookedAt format read args, path ∈ args := by
  intro path hpath
  match args with
  | [] => exact hpath
  | [shader] => exact hpath
  | [shader, config] =>
    rcases lookedAt_pair format read shader config with hlooked | ⟨-, hlooked⟩
    · rw [hlooked] at hpath
      exact List.mem_cons_of_mem shader hpath
    · rw [hlooked] at hpath
      simpa [or_comm] using hpath
  | _ :: _ :: _ :: _ => exact absurd hpath List.not_mem_nil

/-- A run gives the same on files that read alike where it looks. -/
theorem run_congr {read' : String → Except ReadFault String} {args : List String}
    (h : ∀ path ∈ lookedAt format read args, read' path = read path) :
    format.run read' args = format.run read args := by
  have hwith : ∀ options shader, read' shader = read shader →
      runWith read' options shader = runWith read options shader := by
    intro options shader heq
    unfold runWith
    rw [heq]
  match args with
  | [] => rfl
  | [shader] =>
    rw [run_single, run_single]
    exact hwith _ _ (h shader List.mem_cons_self)
  | [shader, config] =>
    have hconfig : optionsIn format read' config = optionsIn format read config := by
      have hmem : config ∈ lookedAt format read [shader, config] := by
        rcases lookedAt_pair format read shader config with hlooked | ⟨-, hlooked⟩ <;>
          rw [hlooked] <;> exact List.mem_cons_self
      unfold optionsIn
      rw [h config hmem]
    rw [run_pair, run_pair, hconfig]
    cases hoptions : optionsIn format read config with
    | error e => rfl
    | ok options =>
      have hmem : shader ∈ lookedAt format read [shader, config] := by
        rw [lookedAt_of_ok hoptions]
        exact List.mem_cons_of_mem _ List.mem_cons_self
      exact hwith options shader (h shader hmem)
  | _ :: _ :: _ :: _ => rfl

/-! ## §6. Runs of the program. -/

/-- **The program answers for the first thing that stands in its way, and only without one
    gives a result.**  Failures of the arguments, the options file, its text, the shader
    file and the options count in this order; what each of them is does not depend on the
    others.  The result is written as it is and a failure as one line, with exit codes 0
    and 1 to 3.  Files that are not looked at have no say in it, and none is looked at that
    the arguments do not name. -/
theorem program_answers_first_obstacle (format : OptionsFormat)
    (read : String → Except ReadFault String) (args : List String) :
    (∀ e, format.run read args = .error e ↔ IsFirstObstacle format read args e)
      ∧ (∀ content, format.run read args = .ok content
        ↔ (∀ stage e, ¬ Obstacle format read args stage e) ∧ Answers format read args content)
      ∧ (∀ written earlier, ∃ output code, EndsWith (format.run read args) output code
        ∧ program format World.host args ⟨read, written, earlier⟩
          = (code, ⟨read, written ++ output, earlier ++ lookedAt format read args⟩))
      ∧ (∀ path ∈ lookedAt format read args, path ∈ args)
      ∧ ∀ other : String → Except ReadFault String,
        format.run (fun path =>
          if path ∈ lookedAt format read args then read path else other path) args
          = format.run read args := by
  refine ⟨fun e => run_eq_error_iff, fun content => run_eq_ok_iff, fun written earlier => ?_,
    lookedAt_subset args, fun other => ?_⟩
  · exact ⟨_, _, endsWith_outcome (format.run read args),
      program_world ⟨read, written, earlier⟩ args⟩
  · apply run_congr
    intro path hpath
    exact if_pos hpath

-- with both files missing, the options file counts
example : run (FileTree.read ⟨[]⟩) ["a.frag", "b.json"] = .error (.fileNotFound "b.json") := by
  rfl

end GlslMinifier
