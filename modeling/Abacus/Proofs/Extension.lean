import Mathlib.Data.List.TakeWhile
import Abacus.Proofs.Effects

/-!
# Default paths of a source

The module of a source is written beside it by default, under the name of the source with another
extension, and that name without extension is the name of the module. Both are read off the last
component of the path. Its extension begins at the last dot, but dots that stand in front do not
count. So the path of a module is its own default path, unless the last component is made of dots
only: one more dot behind them begins no extension.

## Main definitions

* `Path.Cut`: a path cut behind its last slash
* `Path.Extended`: a last component cut before its extension

## Main results

* `Path.cut_split`, `Path.Cut.split_eq`: a path is cut in one way
* `Path.extended_stem`, `Path.Extended.stem_eq`: so is a last component
* `Path.cut_defaultOutput`: the default output stands in the folder of the source
* `Path.destination_defaultOutput_iff`: when the default output is the source itself
* `Path.defaultOutput_stable`: the default output and the default name are stable
-/

namespace Abacus.Path

/-! ## Components -/

/-- **A path cut behind its last slash.** -/
structure Cut (path folder base : List Char) : Prop where
  append_eq : folder ++ base = path
  folder_end : ∀ c ∈ folder.getLast?, c = '/'
  slash_notMem : '/' ∉ base

section Cut

variable {path folder base : List Char}

theorem cut_split (path : List Char) : Cut path (split path).1 (split path).2 where
  append_eq := split_append path
  folder_end := by
    intro c hc
    rw [split, List.getLast?_reverse] at hc
    have hhead := List.head?_dropWhile_not (fun c : Char => decide (c ≠ '/')) path.reverse
    rw [Option.mem_def.mp hc] at hhead
    simpa using hhead
  slash_notMem := by
    intro hmem
    rw [split, List.mem_reverse] at hmem
    simpa using List.mem_takeWhile_imp hmem

/-- A path is cut in one way only. -/
theorem Cut.split_eq (h : Cut path folder base) : split path = (folder, base) := by
  have hbase : ∀ c ∈ base.reverse, decide (c ≠ '/') = true := by
    intro c hc
    rw [List.mem_reverse] at hc
    simpa using fun heq : c = '/' => h.slash_notMem (heq ▸ hc)
  have hfolder : folder.reverse.takeWhile (fun c => decide (c ≠ '/')) = [] ∧
      folder.reverse.dropWhile (fun c => decide (c ≠ '/')) = folder.reverse := by
    cases hrev : folder.reverse with
    | nil => simp
    | cons c cs =>
      have hc : c = '/' := h.folder_end c (by rw [← List.head?_reverse, hrev]; rfl)
      simp [hc]
  rw [split, ← h.append_eq, List.reverse_append, List.dropWhile_append_of_pos hbase,
    List.takeWhile_append_of_pos hbase, hfolder.1, hfolder.2]
  simp

end Cut

/-! ## Extensions -/

/-- **A last component cut before its extension.** The extension begins at a dot, behind which there
is no other and before which there is something else than dots. There is none when behind the dots
in front there is no other dot. -/
inductive Extended : (base stem ext : List Char) → Prop where
  | bare {dots name : List Char} (hdots : ∀ c ∈ dots, c = '.') (hname : '.' ∉ name) :
    Extended (dots ++ name) (dots ++ name) []
  | dotted {stem ext : List Char} (hstem : ∃ c ∈ stem, c ≠ '.') (hext : '.' ∉ ext) :
    Extended (stem ++ '.' :: ext) stem ('.' :: ext)

section Stem

variable {base front ext : List Char}

theorem Extended.append_eq (h : Extended base front ext) : front ++ ext = base := by
  cases h with
  | bare => simp
  | dotted => rfl

/-- A last component is its own stem if there is no dot behind those in front. -/
theorem stem_of_bare {dots name : List Char} (hdots : ∀ c ∈ dots, c = '.') (hname : '.' ∉ name) :
    stem (dots ++ name) = dots ++ name := by
  have hdots' : ∀ c ∈ dots, decide (c = '.') = true := fun c hc => by simpa using hdots c hc
  have hdrop : name.dropWhile (fun c => decide (c = '.')) = name := by
    cases name with
    | nil => rfl
    | cons c cs =>
      have hc : c ≠ '.' := fun heq => hname (by simp [heq])
      simp [hc]
  have hnone : name.reverse.dropWhile (fun c => decide (c ≠ '.')) = [] := by
    refine List.dropWhile_eq_nil_iff.mpr fun c hc => ?_
    simpa using fun heq : c = '.' => hname (heq ▸ List.mem_reverse.mp hc)
  simp only [stem, List.dropWhile_append_of_pos hdots', hdrop, hnone]

/-- What stands before the last dot is the stem, unless it is dots only. -/
theorem stem_of_dotted (hfront : ∃ c ∈ front, c ≠ '.') (hext : '.' ∉ ext) :
    stem (front ++ '.' :: ext) = front := by
  have hne : front.dropWhile (fun c => decide (c = '.')) ≠ [] := by
    intro hnil
    obtain ⟨c, hc, hdot⟩ := hfront
    exact hdot (by simpa using List.dropWhile_eq_nil_iff.mp hnil c hc)
  have hshort : (front.takeWhile fun c => decide (c = '.')).length ≠ front.length := by
    intro hlen
    have hall := (List.takeWhile_sublist _).eq_of_length hlen
    rw [List.takeWhile_eq_self_iff] at hall
    exact hne (List.dropWhile_eq_nil_iff.mpr hall)
  have hlast : ∀ c ∈ ext.reverse, decide (c ≠ '.') = true := fun c hc => by
    simpa using fun heq : c = '.' => hext (heq ▸ List.mem_reverse.mp hc)
  have htake : (front ++ '.' :: ext).takeWhile (fun c => decide (c = '.')) =
      front.takeWhile fun c => decide (c = '.') := by
    rw [List.takeWhile_append, if_neg hshort]
  have hdrop : (front ++ '.' :: ext).dropWhile (fun c => decide (c = '.')) =
      front.dropWhile (fun c => decide (c = '.')) ++ '.' :: ext := by
    rw [List.dropWhile_append, if_neg (by simpa using hne)]
  simp only [stem, htake, hdrop, List.reverse_append, List.reverse_cons, List.append_assoc,
    List.dropWhile_append_of_pos hlast]
  simp

/-- A last component is cut in one way only. -/
theorem Extended.stem_eq (h : Extended base front ext) : stem base = front := by
  cases h with
  | bare hdots hname => exact stem_of_bare hdots hname
  | dotted hstem hext => exact stem_of_dotted hstem hext

/-- **The stem of a last component is cut before its extension.** -/
theorem extended_stem (base : List Char) : ∃ ext, Extended base (stem base) ext := by
  have hcut := List.takeWhile_append_dropWhile (p := fun c : Char => decide (c = '.')) (l := base)
  have hdots : ∀ c ∈ base.takeWhile fun c => decide (c = '.'), c = '.' := fun c hc => by
    simpa using List.mem_takeWhile_imp hc
  by_cases hname : '.' ∈ base.dropWhile fun c => decide (c = '.')
  · obtain ⟨after, before, hrev, hafter⟩ :=
      List.eq_append_cons_of_mem (List.mem_reverse.mpr hname)
    have hsplit : base.dropWhile (fun c => decide (c = '.')) =
        before.reverse ++ '.' :: after.reverse := by
      rw [← List.reverse_reverse (List.dropWhile _ base), hrev]
      simp
    have hother : ∃ c ∈ before.reverse, c ≠ '.' := by
      have hhead := List.head?_dropWhile_not (fun c : Char => decide (c = '.')) base
      rw [hsplit] at hhead
      cases hbefore : before.reverse with
      | nil => simp [hbefore] at hhead
      | cons c cs => exact ⟨c, by simp, by simpa [hbefore] using hhead⟩
    obtain ⟨c, hc, hdot⟩ := hother
    have hext : Extended base (base.takeWhile (fun c => decide (c = '.')) ++ before.reverse)
        ('.' :: after.reverse) := by
      rw [hsplit, ← List.append_assoc] at hcut
      conv => arg 1; rw [← hcut]
      exact .dotted ⟨c, by simp [List.mem_reverse.mp hc], hdot⟩ (by simpa using hafter)
    exact ⟨_, hext.stem_eq ▸ hext⟩
  · have hext : Extended base base [] := by
      have hbare := Extended.bare hdots hname
      rwa [hcut] at hbare
    exact ⟨[], hext.stem_eq.symm ▸ hext⟩

theorem slash_notMem_stem (h : '/' ∉ base) : '/' ∉ stem base := by
  obtain ⟨ext, hext⟩ := extended_stem base
  intro hmem
  exact h (hext.append_eq ▸ List.mem_append_left ext hmem)

end Stem

/-! ## The defaults of a source -/

section Defaults

variable {source : String} {folder base : List Char}

theorem toList_defaultModuleId (h : Cut source.toList folder base) :
    (defaultModuleId source).toList = stem base := by
  rw [defaultModuleId, h.split_eq, String.toList_ofList]

theorem toList_defaultOutput (h : Cut source.toList folder base) :
    (defaultOutput source).toList = folder ++ (stem base ++ ".ll".toList) := by
  rw [defaultOutput, dropExtension, h.split_eq, String.toList_append, String.toList_ofList,
    List.append_assoc]

/-- **The default output stands in the folder of the source.** -/
theorem cut_defaultOutput (h : Cut source.toList folder base) :
    Cut (defaultOutput source).toList folder (stem base ++ ".ll".toList) where
  append_eq := (toList_defaultOutput h).symm
  folder_end := h.folder_end
  slash_notMem := by
    rw [List.mem_append, not_or]
    exact ⟨slash_notMem_stem h.slash_notMem, by decide⟩

/-- **A second extension takes the place of the first**, if there is something else than dots before
it. -/
theorem stem_append_iff : stem (stem base ++ ".ll".toList) = stem base ↔ ∃ c ∈ base, c ≠ '.' := by
  obtain ⟨ext, hext⟩ := extended_stem base
  by_cases hbase : ∃ c ∈ base, c ≠ '.'
  · have hstem : ∃ c ∈ stem base, c ≠ '.' := by
      generalize hs : stem base = s at hext
      cases hext with
      | bare => exact hbase
      | dotted hstem => exact hstem
    exact iff_of_true (stem_of_dotted hstem (by decide)) hbase
  · have hdots : ∀ c ∈ base, c = '.' := by simpa using hbase
    have hself : stem base = base := by
      simpa using stem_of_bare hdots List.not_mem_nil
    have hmore : ∀ c ∈ base ++ ['.'], c = '.' := by
      intro c hc
      rcases List.mem_append.mp hc with hc | hc
      · exact hdots c hc
      · exact List.mem_singleton.mp hc
    have hletters : '.' ∉ ['l', 'l'] := by decide
    have hlonger : stem (base ++ ".ll".toList) = base ++ ".ll".toList := by
      simpa using stem_of_bare hmore hletters
    rw [hself, hlonger]
    exact iff_of_false (by simp) hbase

/-- **The default output is the source** when the source has the extension already. -/
theorem defaultOutput_eq_iff (h : Cut source.toList folder base) :
    defaultOutput source = source ↔
      ∃ front, base = front ++ ".ll".toList ∧ ∃ c ∈ front, c ≠ '.' := by
  have hlist : defaultOutput source = source ↔ stem base ++ ".ll".toList = base := by
    rw [← String.toList_inj, toList_defaultOutput h, ← h.append_eq, List.append_cancel_left_eq]
  rw [hlist]
  constructor
  · intro hbase
    refine ⟨stem base, hbase.symm, ?_⟩
    obtain ⟨ext, hext⟩ := extended_stem base
    have hext' : ext = ".ll".toList := List.append_cancel_left (hext.append_eq.trans hbase.symm)
    subst hext'
    generalize hs : stem base = s at hext
    cases hext with
    | dotted hstem => exact hstem
  · rintro ⟨front, rfl, hfront⟩
    rw [show stem (front ++ ".ll".toList) = front from stem_of_dotted hfront (by decide)]

/-! ## Where the paths lead -/

theorem segments_ne_nil (cs : List Char) : segments cs ≠ [] := by
  fun_induction segments cs <;> simp_all

theorem segments_append_slash (front back : List Char) :
    segments (front ++ '/' :: back) = segments front ++ segments back := by
  induction front with
  | nil => simp [segments]
  | cons c front ih =>
    obtain ⟨first, rest, hfirst⟩ := List.exists_cons_of_ne_nil (segments_ne_nil front)
    by_cases hc : c = '/' <;> simp [segments, hc, ih, hfirst]

theorem segments_of_notMem {cs : List Char} (h : '/' ∉ cs) : segments cs = [cs] := by
  induction cs with
  | nil => rfl
  | cons c cs ih =>
    rw [List.mem_cons, not_or] at h
    rw [segments, if_neg (Ne.symm h.1), ih h.2, List.modifyHead_cons]

/-- A path leads through its folder to its last component. -/
theorem ofPath_of_cut {path : String} (h : Cut path.toList folder base) :
    Route.ofPath path =
      { start := if folder.head? = some '/' then ["/"] else []
        folders := Route.legs 0 ((segments folder).dropLast.map String.ofList)
        last := String.ofList base } := by
  have hsegments : segments path.toList = (segments folder).dropLast ++ [base] := by
    rw [← h.append_eq]
    rcases List.eq_nil_or_concat folder with rfl | ⟨front, c, rfl⟩
    · simp [segments_of_notMem h.slash_notMem, segments]
    · obtain rfl : c = '/' := h.folder_end c (by simp)
      rw [List.concat_eq_append, List.append_assoc, List.singleton_append, segments_append_slash,
        segments_append_slash, segments_of_notMem h.slash_notMem]
      simp [segments]
  have hhead : path.toList.head? = some '/' ↔ folder.head? = some '/' := by
    rw [← h.append_eq]
    cases folder with
    | nil =>
      refine iff_of_false ?_ (by simp)
      exact fun hhead => h.slash_notMem (List.mem_of_head? hhead)
    | cons c folder => simp
  simp only [Route.ofPath, hsegments, hhead]
  simp

/-- A name that is neither empty nor dots leads to a place that no other name leads to. -/
theorem child_eq_iff {l : Location} {name name' : String} (hname : name ≠ "" ∧ name ≠ ".")
    (hup : name ≠ "..") : l.child name' = l.child name ↔ name' = name := by
  have hchild : l.child name = l ++ [name] := by simp [Location.child, hname, hup]
  constructor
  · intro h
    rw [hchild, Location.child] at h
    split_ifs at h with hstay hparent
    · simp at h
    · rw [Location.parent] at h
      split_ifs at h
      · exact absurd (by simpa using h) hup.symm
      · simp at h
      · have hlen := congrArg List.length h
        simp at hlen
    · simpa using h
  · rintro rfl
    rfl

/-- **The default output is the file of the source** only under the path of the source. -/
theorem destination_defaultOutput_iff (source : String) :
    (Route.ofPath (defaultOutput source)).destination = (Route.ofPath source).destination ↔
      defaultOutput source = source := by
  obtain ⟨folder, base, h⟩ : ∃ folder base, Cut source.toList folder base := ⟨_, _, cut_split _⟩
  have hout := cut_defaultOutput h
  refine ⟨fun hplace => ?_, fun heq => by rw [heq]⟩
  rw [ofPath_of_cut h, ofPath_of_cut hout] at hplace
  have hlong : ∀ short : String, short.toList.length ≤ 2 →
      String.ofList (stem base ++ ".ll".toList) ≠ short := by
    rintro _ hlen rfl
    simp at hlen
  have hbase : String.ofList base = String.ofList (stem base ++ ".ll".toList) :=
    (child_eq_iff ⟨hlong "" (by decide), hlong "." (by decide)⟩ (hlong ".." (by decide))).mp
      hplace.symm
  rw [← String.toList_inj, ← hout.append_eq, ← h.append_eq, ← String.ofList_injective hbase]

end Defaults

/-- **The default output and the default name are stable.** A path is cut behind its last slash, and
its last component before the extension. The name of the module is what stands between the two cuts,
and the output is in the same folder, under that name with `.ll` behind it. The output of the output
and the name of the output are the same again exactly when the last component is not made of dots
only. The output is the source exactly when the source has that extension, behind something else
than dots. Then, and only then, a command that names no output overwrites its source. -/
theorem defaultOutput_stable (source : String) :
    ∃ folder base : List Char, Cut source.toList folder base ∧
      (∃ ext, Extended base (defaultModuleId source).toList ext) ∧
      '/' ∉ (defaultModuleId source).toList ∧
      defaultOutput source = String.ofList folder ++ defaultModuleId source ++ ".ll" ∧
      Cut (defaultOutput source).toList folder ((defaultModuleId source).toList ++ ".ll".toList) ∧
      (defaultOutput (defaultOutput source) = defaultOutput source ↔ ∃ c ∈ base, c ≠ '.') ∧
      (defaultModuleId (defaultOutput source) = defaultModuleId source ↔ ∃ c ∈ base, c ≠ '.') ∧
      (defaultOutput source = source ↔
        ∃ front, base = front ++ ".ll".toList ∧ ∃ c ∈ front, c ≠ '.') ∧
      ∀ (t : FileTree) (args : List String) (r : Request), Request.parse args = .ok r →
        r.source = source → r.out? = none → (runOn t args).1.ending = .exit 0 →
        ∃ text s, Opens t args r text ∧ compile text = .ok () s ∧
          (defaultOutput source = source →
            (runOn t args).2.get? (Route.ofPath source).destination =
              some (.file (Module.text ⟨r.moduleId, s.code⟩).toUTF8)) ∧
          (defaultOutput source ≠ source → ∀ content,
            (runOn t args).2.get? (Route.ofPath source).destination = some (.file content) ↔
              t.get? (Route.ofPath source).destination = some (.file content)) := by
  have h := cut_split source.toList
  have hid := toList_defaultModuleId h
  have hout := cut_defaultOutput h
  refine ⟨_, _, h, ?_, ?_, ?_, ?_, ?_, ?_, defaultOutput_eq_iff h, ?_⟩
  · rw [hid]
    exact extended_stem _
  · rw [hid]
    exact slash_notMem_stem h.slash_notMem
  · rw [← String.toList_inj, toList_defaultOutput h, ← hid]
    simp
  · rw [hid]
    exact hout
  · rw [← String.toList_inj, toList_defaultOutput hout, toList_defaultOutput h,
      List.append_cancel_left_eq, List.append_cancel_right_eq, stem_append_iff]
  · rw [← String.toList_inj, toList_defaultModuleId hout, hid, stem_append_iff]
  · rintro t args r hr rfl hnone h0
    obtain ⟨-, text, s, path, hopens, hs, hpath, hwritten, -⟩ :=
      (runOn_course t args).delivered hr h0
    obtain rfl : defaultOutput r.source = path := by
      simpa [Request.output?, hnone] using hpath
    refine ⟨text, s, hopens, hs, fun heq => ?_, fun hne content => ?_⟩
    · rw [← hwritten.content_eq, heq]
    · refine hwritten.files _ (fun hplace => hne ?_) content
      exact (destination_defaultOutput_iff r.source).mp hplace.symm

/-- A source with the extension of a module, behind dots and a letter, is overwritten. -/
theorem defaultOutput_stable_overwrites :
    let t : FileTree := ⟨[(["..m.ll"], .file "1 + 2".toUTF8)]⟩
    defaultOutput "..m.ll" = "..m.ll" ∧ (runOn t ["..m.ll"]).1.ending = .exit 0 ∧
    ∃ s, compile "1 + 2" = .ok () s ∧ (runOn t ["..m.ll"]).2.get? ["..m.ll"] =
      some (.file (Module.text ⟨"..m", s.code⟩).toUTF8) := by
  intro t
  obtain ⟨s, hs⟩ : ∃ s, compile "1 + 2" = .ok () s := by decide +kernel
  have hopens : Opens t ["..m.ll"] { source := "..m.ll" } "1 + 2" := .of_text rfl rfl
  have hexit := (runOn_course t ["..m.ll"]).succeeds hopens hs rfl rfl
  obtain ⟨folder, base, hcut, -, -, -, -, -, -, hsame, hrun⟩ := defaultOutput_stable "..m.ll"
  obtain ⟨rfl, rfl⟩ : [] = folder ∧ "..m.ll".toList = base := Prod.ext_iff.mp hcut.split_eq
  have heq : defaultOutput "..m.ll" = "..m.ll" :=
    hsame.mpr ⟨"..m".toList, by decide, 'm', by decide, by decide⟩
  obtain ⟨text, s', hopens', hs', hwritten, -⟩ := hrun t _ _ hopens.request rfl rfl hexit
  obtain ⟨-, rfl⟩ := hopens.unique hopens'
  obtain rfl : s = s' := by simpa [hs] using hs'
  exact ⟨heq, hexit, s, hs, hwritten heq⟩

end Abacus.Path
