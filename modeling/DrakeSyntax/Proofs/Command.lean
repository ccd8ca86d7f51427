import DrakeSyntax.Command.Run
import DrakeSyntax.Proofs.Arguments
import DrakeSyntax.Proofs.FileSet

/-!
# All or nothing

A run makes its whole result or none of it (`Request.AllOrNothing`). What can go wrong is found
before the first character is printed and before the output file is opened: a source that cannot be
read, one that is no tokens or no program (`Faulty`), an output file that cannot be written. So a
file survives a failed run even when it is both source and output.

* `Request.runIn_action`: what a request does, by the source that it finds.
* `Request.sameResult_action`: milestones are reported beside the result, not in it.
* `command_allOrNothing`: both for the arguments of a command, whatever they are read with.
-/

namespace DrakeSyntax

/-- What is wrong with a text of which an artefact is to be made. -/
inductive Faulty (artefact : Artefact) (text : String) : SyntaxError → Prop
  | lex {e : LexError} : tokenize text = .error e → Faulty artefact text (.lex e)
  | parse {ts : List PlacedToken} {e : ParseError} : artefact = .program →
      tokenize text = .ok ts → parseTokens ts = .error e → Faulty artefact text (.parse e)

section Render

variable {artefact : Artefact} {format : RenderFormat} {text : String} {ts : List PlacedToken}

theorem render_of_lexError {e : LexError} (h : tokenize text = .error e) :
    render artefact format text = .error (.lex e) := by
  unfold render parse
  rw [h]
  cases artefact with
  | tokens | program => rfl

theorem render_tokens_of_ok (h : tokenize text = .ok ts) :
    render .tokens format text = .ok (renderTokens ts format) := by
  unfold render
  rw [h]
  rfl

theorem render_program_of_ok (h : tokenize text = .ok ts) :
    render .program format text = ((parseTokens ts).mapError SyntaxError.parse).map (·.render format) := by
  unfold render parse
  rw [h]
  change ((parseTokens ts).mapError SyntaxError.parse >>= _) = _
  cases parseTokens ts with
  | error e => rfl
  | ok p => rfl

/-- A text cannot be rendered for the one reason that something is wrong with it. -/
theorem render_eq_error_iff {e : SyntaxError} :
    render artefact format text = .error e ↔ Faulty artefact text e := by
  constructor
  · intro h
    cases hlex : tokenize text with
    | error e' =>
      cases (render_of_lexError hlex).symm.trans h
      exact .lex hlex
    | ok ts =>
      cases artefact with
      | tokens =>
        rw [render_tokens_of_ok hlex] at h
        cases h
      | program =>
        rw [render_program_of_ok hlex] at h
        cases hparse : parseTokens ts with
        | error e' =>
          rw [hparse] at h
          cases h
          exact .parse rfl hlex hparse
        | ok p =>
          rw [hparse] at h
          cases h
  · intro h
    cases h with
    | lex hlex => exact render_of_lexError hlex
    | parse hprogram hlex hparse =>
      rw [hprogram, render_program_of_ok hlex, hparse]
      rfl

end Render

/-- Two runs that differ in what they report at most. -/
structure SameResult (run run' : Outcome × FileSet) : Prop where
  exitCode_eq : run.1.exitCode = run'.1.exitCode
  stdout_eq : run.1.stdout = run'.1.stdout
  files_eq : run.2 = run'.2

/-- A run that has failed among some files and has left nothing behind. -/
structure FailsAmong (fs : FileSet) (run : Outcome × FileSet) : Prop where
  exitCode_eq : run.1.exitCode = 1
  stdout_eq : run.1.stdout = ""
  files_eq : run.2 = fs

namespace Request

/-- The name and the text of the source that a request finds. -/
def source (r : Request) (fs : FileSet) : Except FileError (String × String) :=
  match r.input with
  | .code text => .ok ("<eval>", text)
  | .file path => (fs.read path).map (path, ·)

/-- The text is what the request logs of some milestones, nothing unless it is verbose. -/
def IsLog (r : Request) (log : String) : Prop :=
  ∃ milestones : List Milestone, log = r.log fun _ => milestones

/-- A run prints or writes the whole rendered text, or else nothing. -/
structure AllOrNothing (r : Request) (fs : FileSet) (run : Outcome × FileSet) : Prop where
  unreadable {e : FileError} : r.source fs = .error e → FailsAmong fs run
  faulty {name text : String} {e : SyntaxError} : r.source fs = .ok (name, text) →
    Faulty r.artefact text e → FailsAmong fs run ∧
      ∃ log, r.IsLog log ∧ run.1.stderr = log ++ Diagnostic.render name text e
  printed {name text rendered : String} : r.source fs = .ok (name, text) →
    render r.artefact r.format text = .ok rendered → r.output = none →
      run.1.exitCode = 0 ∧ run.1.stdout = rendered ++ "\n" ∧ r.IsLog run.1.stderr ∧ run.2 = fs
  written {name text rendered path : String} : r.source fs = .ok (name, text) →
    render r.artefact r.format text = .ok rendered → r.output = some path → fs.Writable path →
      run.1.exitCode = 0 ∧ run.1.stdout = "" ∧ r.IsLog run.1.stderr ∧
        fs.Overwrites path (rendered ++ "\n") run.2
  unwritable {name text rendered path : String} : r.source fs = .ok (name, text) →
    render r.artefact r.format text = .ok rendered → r.output = some path → ¬fs.Writable path →
      FailsAmong fs run

variable {r : Request} {fs : FileSet} {log log' name text rendered path : String}

/-! ### Logs -/

theorem isLog_empty (r : Request) : r.IsLog "" := by
  refine ⟨[], ?_⟩
  unfold Request.log
  split
  · rfl
  · rfl

theorem IsLog.append (h : r.IsLog log) (h' : r.IsLog log') : r.IsLog (log ++ log') := by
  obtain ⟨ms, rfl⟩ := h
  obtain ⟨ms', rfl⟩ := h'
  refine ⟨ms ++ ms', ?_⟩
  unfold Request.log
  split
  · simp
  · rfl

theorem IsLog.eq_empty (h : r.IsLog log) (hquiet : r.verbose = false) : log = "" := by
  obtain ⟨milestones, rfl⟩ := h
  unfold Request.log
  rw [hquiet]
  rfl

/-! ### What a request does -/

theorem process_of_error {e : SyntaxError} (h : render r.artefact r.format text = .error e) :
    r.process log name text =
      .finish ⟨1, "", (log ++ r.log fun _ => Milestone.ofRendering r.artefact text) ++
        Diagnostic.render name text e⟩ := by
  unfold process
  rw [h]

theorem process_of_ok (h : render r.artefact r.format text = .ok rendered) :
    r.process log name text =
      r.deliver (log ++ r.log fun _ => Milestone.ofRendering r.artefact text) rendered := by
  unfold process
  rw [h]

theorem deliver_of_none (h : r.output = none) :
    r.deliver log rendered = .finish ⟨0, rendered ++ "\n", log⟩ := by
  unfold deliver
  rw [h]

theorem runIn_deliver_of_write {fs' : FileSet} (h : r.output = some path)
    (hwrite : fs.write path (rendered ++ "\n") = .ok fs') :
    (r.deliver log rendered).runIn fs = (⟨0, "", log ++ r.log fun _ => [.wrote path]⟩, fs') := by
  unfold deliver
  rw [h]
  simp only [Action.runIn, hwrite]

theorem runIn_deliver_of_error {e : FileError} (h : r.output = some path)
    (hwrite : fs.write path (rendered ++ "\n") = .error e) :
    (r.deliver log rendered).runIn fs =
      (⟨1, "", log ++ "error: file error: " ++ e.message ++ "\n"⟩, fs) := by
  unfold deliver
  rw [h]
  simp only [Action.runIn, hwrite]

/-- What is left of a run once its source has been read. -/
theorem runIn_action_of_source (h : r.source fs = .ok (name, text)) :
    ∃ log, r.IsLog log ∧ r.action.runIn fs = (r.process log name text).runIn fs := by
  unfold source at h
  unfold action
  cases hinput : r.input with
  | code code =>
    rw [hinput] at h
    cases h
    exact ⟨"", isLog_empty r, rfl⟩
  | file path =>
    rw [hinput] at h
    obtain ⟨read, hread, hsource⟩ := exists_of_map_eq_ok h
    cases hsource
    refine ⟨r.log fun _ => [.read text.utf8ByteSize name], ⟨_, rfl⟩, ?_⟩
    simp only [Action.runIn, hread]

theorem runIn_action_of_unreadable {e : FileError} (h : r.source fs = .error e) :
    FailsAmong fs (r.action.runIn fs) := by
  unfold source at h
  unfold action
  cases hinput : r.input with
  | code code =>
    rw [hinput] at h
    cases h
  | file path =>
    rw [hinput] at h
    simp only [Action.runIn, eq_error_of_map h]
    exact ⟨rfl, rfl, rfl⟩

/-- **A run prints or writes the whole rendered text, or else nothing.** -/
theorem runIn_action (r : Request) (fs : FileSet) : r.AllOrNothing fs (r.action.runIn fs) where
  unreadable h := runIn_action_of_unreadable h
  faulty hsource hfaulty := by
    obtain ⟨log, hlog, hrun⟩ := runIn_action_of_source hsource
    rw [hrun, process_of_error (render_eq_error_iff.2 hfaulty)]
    exact ⟨⟨rfl, rfl, rfl⟩, _, hlog.append ⟨_, rfl⟩, rfl⟩
  printed hsource hrender houtput := by
    obtain ⟨log, hlog, hrun⟩ := runIn_action_of_source hsource
    rw [hrun, process_of_ok hrender, deliver_of_none houtput]
    exact ⟨rfl, rfl, hlog.append ⟨_, rfl⟩, rfl⟩
  written hsource hrender houtput hwritable := by
    obtain ⟨log, hlog, hrun⟩ := runIn_action_of_source hsource
    obtain ⟨fs', hwrite, hoverwrites⟩ := FileSet.exists_write hwritable _
    rw [hrun, process_of_ok hrender, runIn_deliver_of_write houtput hwrite]
    exact ⟨rfl, rfl, (hlog.append ⟨_, rfl⟩).append ⟨_, rfl⟩, hoverwrites⟩
  unwritable hsource hrender houtput hwritable := by
    obtain ⟨log, -, hrun⟩ := runIn_action_of_source hsource
    obtain ⟨e, hwrite⟩ := FileSet.write_of_not_writable hwritable _
    rw [hrun, process_of_ok hrender, runIn_deliver_of_error houtput hwrite]
    exact ⟨rfl, rfl, rfl⟩

/-! ### Requests that differ by their reports -/

variable {b : Bool}

theorem sameResult_deliver (r : Request) (log log' rendered : String) (fs : FileSet) :
    SameResult ((r.deliver log rendered).runIn fs)
      (((r.withVerbose b).deliver log' rendered).runIn fs) := by
  unfold deliver
  rw [show (r.withVerbose b).output = r.output from rfl]
  cases r.output with
  | none => exact ⟨rfl, rfl, rfl⟩
  | some path =>
    simp only [Action.runIn]
    cases fs.write path (rendered ++ "\n") with
    | error e => exact ⟨rfl, rfl, rfl⟩
    | ok fs' => exact ⟨rfl, rfl, rfl⟩

theorem sameResult_process (r : Request) (log log' name text : String) (fs : FileSet) :
    SameResult ((r.process log name text).runIn fs)
      (((r.withVerbose b).process log' name text).runIn fs) := by
  cases hrender : render r.artefact r.format text with
  | error e =>
    rw [process_of_error hrender, process_of_error (r := r.withVerbose b) hrender]
    exact ⟨rfl, rfl, rfl⟩
  | ok rendered =>
    rw [process_of_ok hrender, process_of_ok (r := r.withVerbose b) hrender]
    exact sameResult_deliver ..

/-- **Whether milestones are reported shows in no result.** -/
theorem sameResult_action (r : Request) (b : Bool) (fs : FileSet) :
    SameResult (r.action.runIn fs) ((r.withVerbose b).action.runIn fs) := by
  cases hsource : r.source fs with
  | error e =>
    have h := runIn_action_of_unreadable hsource
    have h' := runIn_action_of_unreadable (r := r.withVerbose b) hsource
    exact ⟨h.exitCode_eq.trans h'.exitCode_eq.symm, h.stdout_eq.trans h'.stdout_eq.symm,
      h.files_eq.trans h'.files_eq.symm⟩
  | ok found =>
    obtain ⟨name, text⟩ := found
    obtain ⟨log, -, hrun⟩ := runIn_action_of_source hsource
    obtain ⟨log', -, hrun'⟩ := runIn_action_of_source (r := r.withVerbose b) hsource
    rw [hrun, hrun']
    exact sameResult_process ..

end Request

section Command

variable {read : List String → Except Outcome Request} {args : List String} {r : Request}

theorem commandWith_of_ok (h : read args = .ok r) : commandWith read args = r.action := by
  unfold commandWith
  rw [h]

/-- Arguments that differ by the verbose one ask for the same. -/
theorem sameResult_commandWith (hread : HeedsVerbose read) (xs ys : List String) {flag : String}
    {r r' : Request} (hflag : AsksForMilestones flag) (h : read (xs ++ ys) = .ok r)
    (h' : read (xs ++ flag :: ys) = .ok r') (fs : FileSet) :
    SameResult ((commandWith read (xs ++ ys)).runIn fs)
      ((commandWith read (xs ++ flag :: ys)).runIn fs) := by
  rw [commandWith_of_ok h, commandWith_of_ok h', hread.eq_withVerbose hflag h h']
  exact r.sameResult_action true fs

/-- **A command makes its whole result or none of it, and the verbose argument does not change that
result**, wherever among the other arguments it is accepted. It may stand in front of them unless it
is one of them. The arguments are left to a reader, of which no more is asked than that the verbose
argument is a flag to it. -/
theorem command_allOrNothing (hread : HeedsVerbose read) (h : read args = .ok r) (fs : FileSet) :
    r.AllOrNothing fs ((commandWith read args).runIn fs) ∧
      (∀ (xs ys : List String) (flag : String) {r' : Request}, args = xs ++ ys →
        AsksForMilestones flag → read (xs ++ flag :: ys) = .ok r' →
          SameResult ((commandWith read args).runIn fs)
            ((commandWith read (xs ++ flag :: ys)).runIn fs)) ∧
      (r.verbose = false → ∀ flag : String, AsksForMilestones flag →
        (∃ r', read (flag :: args) = .ok r') ∧
          SameResult ((commandWith read args).runIn fs)
            ((commandWith read (flag :: args)).runIn fs)) := by
  refine ⟨?_, ?_, ?_⟩
  · rw [commandWith_of_ok h]
    exact r.runIn_action fs
  · rintro xs ys flag r' rfl hflag h'
    exact sameResult_commandWith hread xs ys hflag h h' fs
  · intro hquiet flag hflag
    obtain ⟨r', h'⟩ := hread.exists_ok hflag h hquiet
    exact ⟨⟨r', h'⟩, sameResult_commandWith hread [] args hflag h h' fs⟩

end Command

/-- A source that is no tokens is kept although it is named as the output too, and what is made of
another source takes its place. -/
theorem command_allOrNothing_main :
    let fs : FileSet := ⟨[(["main.dk".toList], "a $".toUTF8)]⟩
    let failed := (command ["-f", "main.dk", "-o", "main.dk"]).runIn fs
    let done := (command ["-e", "a", "--emit", "tokens", "-o", "main.dk"]).runIn fs
    HeedsVerbose readArguments ∧
    (FailsAmong fs failed ∧
        failed.1.stderr =
          Diagnostic.render "main.dk" "a $" (.lex ⟨.unexpectedCharacter '$', ⟨1, 3, 2⟩⟩) ∧
        SameResult failed ((command ["-f", "main.dk", "-v", "-o", "main.dk"]).runIn fs) ∧
        SameResult failed ((command ["--verbose", "-f", "main.dk", "-o", "main.dk"]).runIn fs)) ∧
      done.1.exitCode = 0 ∧ done.1.stdout = "" ∧
        fs.Overwrites "main.dk" ("1:1     identifier 'a'\n1:2     end of input" ++ "\n")
          done.2 := by
  intro fs failed done
  have hread : fs.read "main.dk" = .ok "a $" := by decide +kernel
  have hwritable : fs.Writable "main.dk" := ⟨["main.dk".toList], by decide +kernel, by decide⟩
  refine ⟨heedsVerbose_readArguments, ?_, ?_⟩
  · let r : Request := ⟨some "main.dk", none, .program, .plain, some "main.dk", false⟩
    have hargs : readArguments ["-f", "main.dk", "-o", "main.dk"] = .ok r := by
      decide +kernel
    have hverbose : readArguments ["-f", "main.dk", "-v", "-o", "main.dk"] =
        .ok (r.withVerbose true) := by
      decide +kernel
    have hsource : r.source fs = .ok ("main.dk", "a $") := by
      have hinput : r.input = .file "main.dk" := rfl
      rw [Request.source, hinput]
      simp only [hread, Except.map]
    have hlex : tokenize "a $" = .error ⟨.unexpectedCharacter '$', ⟨1, 3, 2⟩⟩ := by decide +kernel
    obtain ⟨hruns, hinsert, hfront⟩ := command_allOrNothing heedsVerbose_readArguments hargs fs
    obtain ⟨hfails, log, hlog, hstderr⟩ := hruns.faulty hsource (.lex hlex)
    rw [hlog.eq_empty rfl, String.empty_append] at hstderr
    exact ⟨hfails, hstderr, hinsert ["-f", "main.dk"] _ _ rfl (.inr rfl) hverbose,
      (hfront rfl "--verbose" (.inl rfl)).2⟩
  · let r : Request := ⟨none, some "a", .tokens, .plain, some "main.dk", false⟩
    have hargs : readArguments ["-e", "a", "--emit", "tokens", "-o", "main.dk"] = .ok r := by
      decide +kernel
    obtain ⟨hruns, -⟩ := command_allOrNothing heedsVerbose_readArguments hargs fs
    have hrender :
        render .tokens .plain "a" = .ok "1:1     identifier 'a'\n1:2     end of input" := by
      decide +kernel
    obtain ⟨hexit, hstdout, -, hoverwrites⟩ := hruns.written rfl hrender rfl hwritable
    exact ⟨hexit, hstdout, hoverwrites⟩

end DrakeSyntax
