import Abacus.Proofs.Effects
import Abacus.Proofs.Increment

/-!
# Logging the instructions

A command that logs the instructions does nothing else differently. Its log is that of the command
that does not, with one record for each emitted instruction in between: in the order of emission,
and with the number of the line that the instruction was emitted for. A line that fails has its
records too, for what it emitted before it failed.

## Main definitions

* `lastSession`: the session in which a compilation ends
* `emissions`: the instructions that each line emits
* `numbered`: the entries of a log, line by line
* `Outcome.muted`: an outcome without the records of instructions

## Main results

* `compileLines_log`: the log of a compilation, from what each line emits
* `compile_traced`: the records of a compilation are those of its log
* `Request.run_debug`: a request that logs the instructions, in any monad
* `Course.instructions`: the records of instructions of a command
* `runOn_debug_only_logs`: what the option to log the instructions changes
-/

namespace Abacus

/-! ## What each line emits -/

/-- The session in which a compilation ends, whether it succeeds or fails. -/
def lastSession : EStateM.Result Fault Session Unit → Session
  | .ok _ s => s
  | .error _ s => s

/-- **The instructions that each line emits**, up to the line that fails and with those that it
emits before it fails. -/
def emissions (s : Session) : List String → List (List Instr)
  | [] => []
  | text :: rest =>
    match compileLine text s with
    | .ok _ s' => s'.code.drop s.code.length :: emissions s' rest
    | .error _ s' => [s'.code.drop s.code.length]

/-- The entries for instructions that are given line by line, the first line having the given
number. -/
def numbered (number : Nat) (lines : List (List Instr)) : List Entry :=
  (lines.zipIdx number).flatMap fun (instrs, k) => instrs.map (⟨k, ·⟩)

theorem numbered_cons (number : Nat) (instrs : List Instr) (lines : List (List Instr)) :
    numbered number (instrs :: lines) =
      instrs.map (⟨number, ·⟩) ++ numbered (number + 1) lines := by
  rw [numbered, List.zipIdx_cons, List.flatMap_cons]
  rfl

/-- The entries that a session has gained are those of the instructions it has gained. -/
theorem Session.Grows.log_eq_append {s s' : Session} (h : s.Grows s') :
    s'.log = s.log ++ (s'.code.drop s.code.length).map (⟨s.line, ·⟩) := by
  obtain ⟨-, new, hlog, -, hnew⟩ := h
  have hcode : s'.code.drop s.code.length = new.map (·.instr) := by
    simp only [Session.code, hlog, List.map_append, List.drop_left]
  have hlines : new.map (fun e => (⟨s.line, e.instr⟩ : Entry)) = new := by
    refine (List.map_congr_left fun e he => ?_).trans new.map_id
    rw [← hnew e he]
    rfl
  rw [hcode, List.map_map, hlog]
  exact congrArg _ hlines.symm

/-- **The log of a compilation, from what each line emits.** -/
theorem compileLines_log (lines : List String) {s : Session} {n : Nat} (hn : s.line = n) :
    (lastSession (compileLines lines s)).log = s.log ++ numbered (n + 1) (emissions s lines) := by
  induction lines generalizing s n with
  | nil => exact (List.append_nil _).symm
  | cons text rest ih =>
    have hgrows := compileLine_grows text s
    rw [compileLines, emissions]
    cases hline : compileLine text s with
    | ok u s' =>
      have hline' := hgrows.ok_of_eq hline
      have hnext : s'.line = (n + 1 : Nat) := by rw [hline'.line_eq, hn]; rfl
      rw [Lowering.bind_of_ok hline, ih hnext, numbered_cons, hline'.log_eq_append, hn]
      exact List.append_assoc ..
    | error fault s' =>
      have hline' := hgrows.fail_of_eq hline
      rw [Lowering.bind_of_error hline, numbered_cons]
      refine hline'.log_eq_append.trans ?_
      rw [hn]
      exact congrArg _ (List.append_nil _).symm

/-- **The records of a compilation are those of its log**, wherever it ends. -/
theorem compile_traced (source : String) : (lastSession (compile source)).Traced := by
  have htraced := compileLines_traced (s := {}) (Text.lines source) rfl
  cases h : compile source with
  | ok u s => exact htraced.ok_of_eq h
  | error fault s => exact htraced.fail_of_eq h

/-! ## The two runs -/

/-- An outcome without the records of instructions. -/
def Outcome.muted (o : Outcome) : Outcome :=
  { o with records := o.records.filter (·.level = .info) }

theorem Fault.records_outcome (f : Fault) (records : List Record) :
    (f.outcome records).records = records := by
  cases f <;> rfl

theorem Fault.muted_outcome (f : Fault) (records : List Record) :
    (f.outcome records).muted = f.outcome (records.filter (·.level = .info)) := by
  cases f <;> rfl

namespace Request

variable (r : Request) {s : Session}

theorem filter_info_trace (hs : s.Traced) : (r.trace s).filter (·.level = .info) = [] := by
  unfold trace
  split
  · rw [hs]
    simp [List.filter_eq_nil_iff, Entry.record, Record.emission]
  · rfl

theorem filter_debug_trace (hs : s.Traced) (h : r.debug = true) :
    (r.trace s).filter (·.level = .debug) = s.log.map Entry.record := by
  rw [trace, if_pos h, hs]
  exact List.filter_eq_self.mpr (by simp [Entry.record, Record.emission])

/-- **A request that logs the instructions is carried out like one that does not**, whatever reading
and writing mean: all that it has more is records of instructions. -/
theorem run_debug {m : Type → Type} [Monad m] [LawfulMonad m] (files : Files m)
    (h : r.debug = false) :
    Outcome.muted <$> run files { r with debug := true } = run files r := by
  have hrecords : ∀ {s : Session}, s.Traced →
      (r.opening :: trace { r with debug := true } s).filter (·.level = .info) =
        r.opening :: r.trace s := by
    intro s hs
    rw [List.filter_cons_of_pos (by rfl), filter_info_trace _ hs, trace, h]
    rfl
  have hpure : ∀ {o o' : Outcome}, o.muted = o' →
      Outcome.muted <$> (pure o : m Outcome) = pure o' :=
    fun heq => (map_pure ..).trans (congrArg pure heq)
  -- both go the same way at every turn: the option is looked at for the records only
  rw [run, run, map_bind]
  refine bind_congr fun result => ?_
  cases result with
  | error f => exact hpure rfl
  | ok content =>
    dsimp only
    cases decodeSource content with
    | error f => exact hpure rfl
    | ok source =>
      have htraced := compile_traced source
      dsimp only
      generalize compile source = result at htraced
      cases result with
      | error f s => exact hpure ((f.muted_outcome _).trans (congrArg f.outcome (hrecords htraced)))
      | ok u s =>
        have houtput : output? { r with debug := true } = r.output? := rfl
        dsimp only
        rw [houtput]
        cases r.output? with
        | none => exact hpure (congrArg (Outcome.mk .noOutput "" "") (hrecords htraced))
        | some path =>
          dsimp only
          rw [map_bind]
          refine bind_congr fun written => ?_
          cases written with
          | error f => exact hpure (congrArg (Outcome.mk (.fileFault f) "" "") (hrecords htraced))
          | ok u =>
            refine hpure (congrArg (Outcome.mk (.exit 0) "" "") ?_)
            rw [List.filter_append]
            exact congrArg (· ++ [closing s path]) (hrecords htraced)

end Request

section Runs

variable {t : FileTree} {args args' : List String} {r : Request} {text : String}

/-- A command that logs the instructions, and one that does not. -/
theorem runOn_debug (hr : Request.parse args = .ok r) (hdebug : r.debug = false)
    (hr' : Request.parse args' = .ok { r with debug := true }) :
    runOn t args = ((runOn t args').1.muted, (runOn t args').2) := by
  rw [runOn, runOn, runCommand, runCommand, hr, hr']
  dsimp only
  rw [← r.run_debug FileTree.operations hdebug, StateT.run_map]
  rfl

/-- **The records of instructions of a command**: none when there is nothing to compile, otherwise
those of the log in which the compilation ends. -/
theorem Course.instructions {out : Outcome × FileTree} (h : Course t args out)
    (hr : Request.parse args = .ok r) (hdebug : r.debug = true) :
    ((∀ text, ¬ Opens t args r text) → out.1.records.filter (·.level = .debug) = []) ∧
    ∀ text, Opens t args r text → out.1.records.filter (·.level = .debug) =
      (lastSession (compile text)).log.map Entry.record := by
  have hopened : ∀ {r' : Request} {text' : String} {s : Session} {records : List Record},
      Opens t args r' text' → lastSession (compile text') = s →
      records.filter (·.level = .debug) = (r'.trace s).filter (·.level = .debug) →
      ((∀ text, ¬ Opens t args r text) → records.filter (·.level = .debug) = []) ∧
      ∀ text, Opens t args r text → records.filter (·.level = .debug) =
        (lastSession (compile text)).log.map Entry.record := by
    intro r' text' s records hopens hs hrecords
    obtain rfl := Except.ok.inj (hr.symm.trans hopens.request)
    refine ⟨fun hno => absurd hopens (hno text'), fun text hopens' => ?_⟩
    obtain ⟨-, rfl⟩ := hopens.unique hopens'
    rw [hrecords, hs, r.filter_debug_trace (hs ▸ compile_traced text') hdebug]
  cases h with
  | halted hhalt => exact absurd (hhalt.symm.trans hr) nofun
  | unread hr' hno =>
    obtain rfl := Except.ok.inj (hr.symm.trans hr')
    exact ⟨fun _ => rfl, fun text hopens => absurd hopens (hno text)⟩
  | @refused _ _ f _ hopens hs =>
    rw [f.records_outcome]
    exact hopened hopens (by rw [hs, lastSession]) rfl
  | homeless hopens hs => exact hopened hopens (by rw [hs, lastSession]) rfl
  | unwritten hopens hs => exact hopened hopens (by rw [hs, lastSession]) rfl
  | written hopens hs =>
    refine hopened hopens (by rw [hs, lastSession]) ?_
    rw [List.filter_append]
    exact List.append_nil _

end Runs

/-- **The option to log the instructions changes nothing but the log, and logs all of them.**

A command line that is accepted without the option is accepted with it in front. Wherever else the
option is accepted, the command leaves the same tree, prints the same and ends in the same way; the
other records of its log are those that it has without the option. The records of the option are one
for each entry in the log of the session in which the compilation ends, by success or by a fault.
These entries are the instructions that the lines of the source emit, with the numbers of the lines
from one on. -/
theorem runOn_debug_only_logs (t : FileTree) {args : List String} {r : Request}
    (hr : Request.parse args = .ok r) (hdebug : r.debug = false) :
    Request.parse ("--debug" :: args) = .ok { r with debug := true } ∧
    ∀ front back r', args = front ++ back →
      Request.parse (front ++ "--debug" :: back) = .ok r' →
      let quiet := runOn t args
      let traced := runOn t (front ++ "--debug" :: back)
      traced.2 = quiet.2 ∧ traced.1.stdout = quiet.1.stdout ∧
      traced.1.complaint = quiet.1.complaint ∧ traced.1.ending = quiet.1.ending ∧
      traced.1.records.filter (·.level = .info) = quiet.1.records ∧
      ((∀ text, ¬ Opens t args r text) → traced.1.records.filter (·.level = .debug) = []) ∧
      ∀ text, Opens t args r text →
        traced.1.records.filter (·.level = .debug) =
          (lastSession (compile text)).log.map Entry.record ∧
        (lastSession (compile text)).log = numbered 1 (emissions {} (Text.lines text)) := by
  refine ⟨Request.parse_cons_debug hr, ?_⟩
  rintro front back r' rfl hr'
  intro quiet traced
  obtain rfl := Request.parse_insert_debug hr hr'
  have hquiet : quiet = (traced.1.muted, traced.2) := runOn_debug hr hdebug hr'
  have hopens : ∀ text, Opens t (front ++ "--debug" :: back) { r with debug := true } text ↔
      Opens t (front ++ back) r text :=
    fun text => ⟨fun h => ⟨hr, h.source⟩, fun h => ⟨hr', h.source⟩⟩
  obtain ⟨hnone, hall⟩ := (runOn_course t (front ++ "--debug" :: back)).instructions hr' rfl
  rw [hquiet]
  refine ⟨rfl, rfl, rfl, rfl, rfl, fun h => hnone fun text => ?_, fun text h => ⟨?_, ?_⟩⟩
  · exact fun hopen => h text ((hopens text).mp hopen)
  · exact hall text ((hopens text).mpr h)
  · exact compileLines_log (Text.lines text) rfl

/-- A source fails on its second line, after that line has emitted three instructions. -/
theorem runOn_debug_only_logs_failing :
    let t : FileTree := ⟨[(["a.calc"], .file "x = 1\r\ny = x*3 + z\nw = 2".toUTF8)]⟩
    let quiet := runOn t ["a.calc", "-o", "b"]
    let traced := runOn t ["a.calc", "--debug", "-o", "b"]
    Request.parse ["a.calc", "-o", "b"] =
      .ok { source := "a.calc", out? := some (.text "b"), debug := false } ∧
    Request.parse ["--debug", "a.calc", "-o", "b"] =
      .ok { source := "a.calc", out? := some (.text "b"), debug := true } ∧
    traced.2 = quiet.2 ∧ traced.1.stdout = quiet.1.stdout ∧
    traced.1.complaint = quiet.1.complaint ∧ traced.1.ending = quiet.1.ending ∧
    traced.1.records.filter (·.level = .info) = quiet.1.records ∧
    traced.1.records.filter (·.level = .debug) =
      ["line 1: %x = alloca i32", "line 1: store i32 1, i32* %x", "line 2: %y = alloca i32",
        "line 2: %1 = load i32* %x", "line 2: %2 = mul i32 %1, 3"].map (⟨.debug, ·⟩) := by
  intro t quiet traced
  have hr : Request.parse ["a.calc", "-o", "b"] =
      .ok { source := "a.calc", out? := some (.text "b"), debug := false } := rfl
  obtain ⟨hfirst, hrest⟩ := runOn_debug_only_logs t hr rfl
  obtain ⟨htree, hstdout, hcomplaint, hending, hinfo, -, hdebug⟩ :=
    hrest ["a.calc"] ["-o", "b"] _ rfl rfl
  obtain ⟨hrecords, hlog⟩ := hdebug "x = 1\r\ny = x*3 + z\nw = 2" (.of_text hr rfl)
  refine ⟨hr, hfirst, htree, hstdout, hcomplaint, hending, hinfo, hrecords.trans ?_⟩
  rw [hlog]
  decide +kernel

end Abacus
