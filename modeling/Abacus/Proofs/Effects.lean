import Abacus.Command.Run
import Abacus.Proofs.Joining
import Abacus.Proofs.Lowering
import Abacus.Proofs.Options
import Abacus.Proofs.Writing

/-!
# What a command changes

A command has one course out of six: it is halted by its arguments, its source cannot be read, the
source is refused, the module has no path to go to, the module cannot be written, or it is written.
Only the last two change the tree, and only the last one changes a file.

## Main definitions

* `Opens`: a command line asks for something, and its source reads as a text
* `Course`: what a command does, and where it leads

## Main results

* `compile_unifyBreaks`: the breaks of a source need not be unified to compile it
* `runOn_course`: every command has one of these courses
* `runOn_changes_output_only`: what a command changes, when it succeeds and when it fails
-/

namespace Abacus

/-- Unifying the breaks of a source does not change what it compiles to. -/
theorem compile_unifyBreaks (source : String) :
    compile (String.ofList (Text.unifyBreaks source.toList)) = compile source := by
  rw [compile, compile, Text.lines_unifyBreaks]

theorem Request.output?_eq_some_iff {r : Request} {path : String} :
    r.output? = some path ↔ r.out?.getD (.text (Path.defaultOutput r.source)) = .text path := by
  unfold output?
  split <;> simp_all

theorem Cause.exitCode_ne_zero (c : Cause) : c.exitCode ≠ 0 := by
  cases c <;> simp [exitCode]

namespace FileTree

variable {α β : Type}

theorem operations_read (t : FileTree) (path : String) :
    (operations.read path).run.run t = (t.read path, t) := by
  have hget : TreeStep.on (getThe FileTree) t = (.ok t, t) := rfl
  refine (TreeStep.on_bind_of_ok hget).trans ?_
  cases t.read path <;> rfl

theorem operations_write (t : FileTree) (path text : String) :
    (operations.write path text).run.run t = TreeStep.on (write path text.toUTF8) t := rfl

theorem run_bind_of_eq {x : StateM FileTree α} {f : α → StateM FileTree β} {a : α}
    {t t' : FileTree} (h : x.run t = (a, t')) : (x >>= f).run t = (f a).run t' := by
  rw [StateT.run_bind, h]
  rfl

end FileTree

/-! ## Courses of a command -/

/-- The command line asks for `r`, and the source of `r` reads as `text`. The text is what the bytes
of the file decode to: its line breaks are those of the file. -/
structure Opens (t : FileTree) (args : List String) (r : Request) (text : String) : Prop where
  request : Request.parse args = .ok r
  source : ∃ content, t.read r.source = .ok content ∧ String.fromUTF8? content = some text

/-- What a text encodes to reads as that text. -/
theorem Opens.of_text {t : FileTree} {args : List String} {r : Request} {text : String}
    (hr : Request.parse args = .ok r) (hread : t.read r.source = .ok text.toUTF8) :
    Opens t args r text :=
  ⟨hr, text.toUTF8, hread, dif_pos text.isValidUTF8⟩

theorem Opens.unique {t : FileTree} {args : List String} {r r' : Request} {text text' : String}
    (h : Opens t args r text) (h' : Opens t args r' text') : r = r' ∧ text = text' := by
  obtain ⟨hr, content, hread, htext⟩ := h
  obtain ⟨hr', content', hread', htext'⟩ := h'
  obtain rfl : r = r' := Except.ok.inj (hr.symm.trans hr')
  obtain rfl : content = content' := Except.ok.inj (hread.symm.trans hread')
  exact ⟨rfl, Option.some.inj (htext.symm.trans htext')⟩

/-- Write the module of a compiled source. -/
def Request.deliver (r : Request) (s : Session) (path : String) : TreeStep Unit :=
  FileTree.write path (Module.text ⟨r.moduleId, s.code⟩).toUTF8

/-- **The courses of a command**, each with its outcome and the tree that it leaves. -/
inductive Course (t : FileTree) (args : List String) : Outcome × FileTree → Prop
  | halted {halt : Halt} (h : Request.parse args = .error halt) : Course t args (halt.outcome, t)
  | unread {r : Request} (hr : Request.parse args = .ok r) (h : ∀ text, ¬ Opens t args r text)
      (f : FileFault) : Course t args ({ ending := .fileFault f, records := [r.opening] }, t)
  | refused {r : Request} {text : String} {f : Fault} {s : Session} (h : Opens t args r text)
      (hs : compile text = .error f s) : Course t args (f.outcome (r.opening :: r.trace s), t)
  | homeless {r : Request} {text : String} {s : Session} (h : Opens t args r text)
      (hs : compile text = .ok () s) (ho : r.output? = none) :
      Course t args ({ ending := .noOutput, records := r.opening :: r.trace s }, t)
  | unwritten {r : Request} {text path : String} {s : Session} {f : FileFault} {t' : FileTree}
      (h : Opens t args r text) (hs : compile text = .ok () s) (ho : r.output? = some path)
      (hw : TreeStep.on (r.deliver s path) t = (.error f, t')) :
      Course t args ({ ending := .fileFault f, records := r.opening :: r.trace s }, t')
  | written {r : Request} {text path : String} {s : Session} {t' : FileTree}
      (h : Opens t args r text) (hs : compile text = .ok () s) (ho : r.output? = some path)
      (hw : TreeStep.on (r.deliver s path) t = (.ok (), t')) :
      Course t args
        ({ ending := .exit 0, records := r.opening :: r.trace s ++ [Request.closing s path] }, t')

/-- Every command has one of the courses. -/
theorem runOn_course (t : FileTree) (args : List String) : Course t args (runOn t args) := by
  rw [runOn, runCommand]
  cases hr : Request.parse args with
  | error halt => exact .halted hr
  | ok r =>
    dsimp only
    rw [Request.run, FileTree.run_bind_of_eq (FileTree.operations_read t r.source)]
    cases hread : t.read r.source with
    | error f =>
      refine .unread hr (fun text h => ?_) f
      obtain ⟨content, hcontent, -⟩ := h.source
      simp [hread] at hcontent
    | ok content =>
      -- the breaks are unified on reading, and the compiler makes no difference between them
      dsimp only
      rw [decodeSource]
      cases htext : String.fromUTF8? content with
      | none =>
        refine .unread hr (fun text h => ?_) .notText
        obtain ⟨content', hcontent, htext'⟩ := h.source
        simp_all
      | some text =>
        have h : Opens t args r text := ⟨hr, content, hread, htext⟩
        dsimp only
        rw [compile_unifyBreaks]
        cases hs : compile text with
        | error f s => exact .refused h hs
        | ok _ s =>
          dsimp only
          cases ho : r.output? with
          | none => exact .homeless h hs ho
          | some path =>
            dsimp only
            rcases hw : TreeStep.on (r.deliver s path) t with ⟨f | _, t'⟩
            · rw [FileTree.run_bind_of_eq ((FileTree.operations_write ..).trans hw)]
              exact .unwritten h hs ho hw
            · rw [FileTree.run_bind_of_eq ((FileTree.operations_write ..).trans hw)]
              exact .written h hs ho hw

/-! ## What a course changes -/

namespace Course

variable {t : FileTree} {args : List String} {out : Outcome × FileTree}

/-- Nothing changes unless the source compiles. -/
theorem unchanged (h : Course t args out)
    (hno : ∀ r text s, Opens t args r text → compile text ≠ .ok () s) : out.2 = t := by
  cases h with
  | halted | unread | refused => rfl
  | homeless hr hs | unwritten hr hs | written hr hs => exact absurd hs (hno _ _ _ hr)

/-- No file changes unless the command succeeds. -/
theorem sameFiles (h : Course t args out)
    (hno : ∀ r, Request.parse args = .ok r → out.1.ending ≠ .exit 0) : t.SameFiles out.2 := by
  cases h with
  | halted | unread | refused | homeless => exact .refl t
  | unwritten hr hs ho hw => exact ((FileTree.write_frame ..).fail_of_eq hw).sameFiles
  | written hr => exact absurd rfl (hno _ hr.request)

/-- A source that does not compile has the outcome of its fault. -/
theorem eq_of_refused {r : Request} {text : String} {f : Fault} {s : Session}
    (h : Course t args out) (hr : Opens t args r text) (hs : compile text = .error f s) :
    out = (f.outcome (r.opening :: r.trace s), t) := by
  cases h with
  | halted hhalt => exact absurd (hhalt.symm.trans hr.request) nofun
  | unread hr' hno =>
    obtain rfl := Except.ok.inj (hr'.symm.trans hr.request)
    exact absurd hr (hno text)
  | refused hr' hs' =>
    obtain ⟨rfl, rfl⟩ := hr.unique hr'
    cases hs.symm.trans hs'
    rfl
  | homeless hr' hs' | unwritten hr' hs' | written hr' hs' =>
    obtain ⟨-, rfl⟩ := hr.unique hr'
    cases hs.symm.trans hs'

/-- The command succeeds when its source compiles and the module can be written. -/
theorem succeeds {r : Request} {text path : String} {s : Session} {t' : FileTree}
    (h : Course t args out) (hr : Opens t args r text) (hs : compile text = .ok () s)
    (ho : r.output? = some path) (hw : TreeStep.on (r.deliver s path) t = (.ok (), t')) :
    out.1.ending = .exit 0 := by
  cases h with
  | halted hhalt => exact absurd (hhalt.symm.trans hr.request) nofun
  | unread hr' hno =>
    obtain rfl := Except.ok.inj (hr'.symm.trans hr.request)
    exact absurd hr (hno text)
  | refused hr' hs' =>
    obtain ⟨-, rfl⟩ := hr.unique hr'
    cases hs.symm.trans hs'
  | homeless hr' hs' ho' =>
    obtain ⟨rfl, -⟩ := hr.unique hr'
    cases ho.symm.trans ho'
  | unwritten hr' hs' ho' hw' =>
    obtain ⟨rfl, rfl⟩ := hr.unique hr'
    cases hs.symm.trans hs'
    cases ho.symm.trans ho'
    cases hw.symm.trans hw'
  | written => rfl

/-- A command that succeeds has written its module. -/
theorem delivered {r : Request} (h : Course t args out) (hr : Request.parse args = .ok r)
    (h0 : out.1.ending = .exit 0) :
    out.1.stdout = "" ∧ ∃ text s path, Opens t args r text ∧ compile text = .ok () s ∧
      r.output? = some path ∧
      FileTree.Written (.ofPath path) (Module.text ⟨r.moduleId, s.code⟩).toUTF8 t out.2 ∧
      ((∀ leg ∈ (Route.ofPath path).folders, leg.name.utf8ByteSize ≤ Path.maxNameBytes) →
        out.2.read path = .ok (Module.text ⟨r.moduleId, s.code⟩).toUTF8) := by
  cases h with
  | halted hhalt => exact absurd (hhalt.symm.trans hr) nofun
  | unread | homeless | unwritten => cases h0
  | @refused _ _ f _ _ hs =>
    cases f with
    | rejected d => exact absurd (Ending.exit.inj h0) d.cause.exitCode_ne_zero
    | _ => cases h0
  | @written r' text path s _ hr' hs ho hw =>
    obtain rfl := Except.ok.inj (hr.symm.trans hr'.request)
    exact ⟨rfl, text, s, path, hr', hs, ho, (FileTree.write_frame ..).ok_of_eq hw⟩

end Course

/-- **A command changes files only when it succeeds, and then only the one it writes.**

Unless the source compiles nothing changes, and unless the command succeeds no file changes. A
diagnostic is printed and decides the exit status. When the module can be written, the command
succeeds; it has then printed nothing, and the only change is the file at the output path, which
holds the module, with the folders that were missing on the way to it. -/
theorem runOn_changes_output_only (t : FileTree) (args : List String) :
    ((∀ r text s, Opens t args r text → compile text ≠ .ok () s) → (runOn t args).2 = t) ∧
    ((∀ r, Request.parse args = .ok r → (runOn t args).1.ending ≠ .exit 0) →
      t.SameFiles (runOn t args).2) ∧
    (∀ r text d s, Opens t args r text → compile text = .error (.rejected d) s →
      (runOn t args).1.stdout = d.message ++ "\n" ∧
      (runOn t args).1.ending = .exit d.cause.exitCode) ∧
    (∀ r text s path t', Opens t args r text → compile text = .ok () s →
      r.output? = some path → TreeStep.on (r.deliver s path) t = (.ok (), t') →
      (runOn t args).1.ending = .exit 0) ∧
    ∀ r, Request.parse args = .ok r → (runOn t args).1.ending = .exit 0 →
      (runOn t args).1.stdout = "" ∧
      ∃ parsed text s path id, Arg.ofTexts args = .ok parsed ∧ Arg.sources parsed = [r.source] ∧
        (Arg.given .out parsed).getD (.text (Path.defaultOutput r.source)) = .text path ∧
        ((Arg.given .moduleId parsed).map SettingValue.written).getD
          (Path.defaultModuleId r.source) = id ∧
        Opens t args r text ∧ compile text = .ok () s ∧
        FileTree.Written (.ofPath path) (Module.text ⟨id, s.code⟩).toUTF8 t (runOn t args).2 ∧
        ((∀ leg ∈ (Route.ofPath path).folders, leg.name.utf8ByteSize ≤ Path.maxNameBytes) →
          (runOn t args).2.read path = .ok (Module.text ⟨id, s.code⟩).toUTF8) := by
  have hcourse := runOn_course t args
  refine ⟨hcourse.unchanged, hcourse.sameFiles, ?_, ?_, ?_⟩
  · intro r text d s hr hs
    rw [hcourse.eq_of_refused hr hs]
    exact ⟨rfl, rfl⟩
  · intro r text s path t' hr hs ho hw
    exact hcourse.succeeds hr hs ho hw
  · intro r hr h0
    obtain ⟨hstdout, text, s, path, hopens, hs, ho, hwritten⟩ := hcourse.delivered hr h0
    obtain ⟨parsed, hparsed, hsources, hout, hid⟩ := Request.parse_given hr
    refine ⟨hstdout, parsed, text, s, path, r.moduleId, hparsed, hsources, ?_, ?_, hopens, hs,
      hwritten⟩
    · rw [hout]
      exact Request.output?_eq_some_iff.mp ho
    · rw [hid]
      rfl

/-- A module is written to a folder that is made for it, next to its source and another file; the
other file does not compile. -/
theorem runOn_changes_output_only_folder :
    let t : FileTree :=
      ⟨[(["a.calc"], .file "x = 1\r\ny = x*2\r".toUTF8), (["b.calc"], .file "x = z".toUTF8)]⟩
    let args := ["a.calc", "-o", "out/b.ll"]
    (∃ s, compile "x = 1\r\ny = x*2\r" = .ok () s ∧ (runOn t args).1.ending = .exit 0 ∧
      (runOn t args).1.stdout = "" ∧ (runOn t args).2.get? ["out"] = some .folder ∧
      (runOn t args).2.get? ["b.calc"] = some (.file "x = z".toUTF8) ∧
      (runOn t args).2.read "out/b.ll" = .ok (Module.text ⟨"a", s.code⟩).toUTF8) ∧
    (runOn t ["b.calc"]).2 = t ∧
    (runOn t ["b.calc"]).1.stdout = "Error: Line 1: undefined variable z.\n" ∧
    (runOn t ["b.calc"]).1.ending = .exit 1 := by
  intro t args
  constructor
  · obtain ⟨s, hs⟩ : ∃ s, compile "x = 1\r\ny = x*2\r" = .ok () s := by decide +kernel
    have hopens : Opens t args { source := "a.calc", out? := some (.text "out/b.ll") }
        "x = 1\r\ny = x*2\r" := .of_text rfl rfl
    obtain ⟨-, -, -, hsucceeds, hsuccess⟩ := runOn_changes_output_only t args
    have hexit := hsucceeds _ _ s "out/b.ll" _ hopens hs rfl rfl
    obtain ⟨hstdout, parsed, text, s', path, id, hparsed, -, hpath, hid, hopens', hs', hwritten,
      hread⟩ := hsuccess _ hopens.request hexit
    obtain ⟨-, rfl⟩ := hopens.unique hopens'
    obtain rfl : s = s' := by simpa [hs] using hs'
    obtain rfl : [.plain "a.calc", .option (.setting .out) none, .plain "out/b.ll"] = parsed :=
      Except.ok.inj (Eq.trans rfl hparsed)
    obtain rfl : "out/b.ll" = path := SettingValue.text.inj hpath
    obtain rfl : "a" = id := hid
    refine ⟨s, hs, hexit, hstdout, ?_, ?_, hread (by decide +kernel)⟩
    · exact ((hwritten.newFolders _).mpr ⟨by decide +kernel, by decide +kernel⟩).1
    · exact (hwritten.files _ (by decide +kernel) _).mpr rfl
  · obtain ⟨s, hs⟩ : ∃ s, compile "x = z" =
        .error (.rejected ⟨1, .undefinedVariable "z"⟩) s := by decide +kernel
    have hopens : Opens t ["b.calc"] { source := "b.calc" } "x = z" := .of_text rfl rfl
    obtain ⟨hunchanged, -, hrefused, -, -⟩ := runOn_changes_output_only t ["b.calc"]
    refine ⟨hunchanged ?_, hrefused _ _ _ s hopens hs⟩
    intro r text s' hopens'
    obtain ⟨rfl, rfl⟩ := hopens.unique hopens'
    simp [hs]

end Abacus
