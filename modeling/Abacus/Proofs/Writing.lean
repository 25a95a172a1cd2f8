import Abacus.Command.FileTree

/-!
# What writing a file changes

Writing a file touches the file and nothing else, but for the folders on the way to it that are
missing. When it fails, it may have made some of these folders, and no file is touched.

## Main definitions

* `TreeStep.on`, `TreeStep.Ensures`: a step carried out on a tree, and an assertion about its end
* `Location.along`, `Location.places`: where legs lead to, and the places that they pass
* `Route.destination`, `Route.ancestors`: the place of a file, and the folders on the way to it
* `FileTree.SameFiles`: trees with the same files
* `FileTree.Paves`: a tree with some folders added to it
* `FileTree.Written`: a tree with a file written to it

## Main results

* `FileTree.makeFolders_paves`: following a way makes the folders that are missing on it
* `FileTree.write_frame`: what writing a file does when it succeeds, and when it fails
-/

namespace Abacus

/-! ## Steps on a tree -/

namespace TreeStep

variable {α β : Type} {x : TreeStep α} {f : α → TreeStep β} {t t' : FileTree}

/-- Carry out a step on a tree. -/
def on (x : TreeStep α) (t : FileTree) : Except FileFault α × FileTree :=
  x.run.run t

@[simp] theorem on_pure (a : α) (t : FileTree) : on (pure a) t = (.ok a, t) := rfl

@[simp] theorem on_throw (fault : FileFault) (t : FileTree) :
    on (throw fault : TreeStep α) t = (.error fault, t) := rfl

@[simp] theorem on_get (t : FileTree) : on get t = (.ok t, t) := rfl

@[simp] theorem on_modify (g : FileTree → FileTree) (t : FileTree) :
    on (modify g) t = (.ok ⟨⟩, g t) := rfl

@[simp] theorem on_liftExcept (e : Except FileFault α) (t : FileTree) :
    on (liftExcept e) t = (e, t) := by
  cases e <;> rfl

theorem on_bind_of_ok {a : α} (h : on x t = (.ok a, t')) : on (x >>= f) t = on (f a) t' := by
  simp only [on] at h
  simp only [on, ExceptT.run_bind, StateT.run_bind, h]
  rfl

theorem on_bind_of_error {fault : FileFault} (h : on x t = (.error fault, t')) :
    on (x >>= f) t = (.error fault, t') := by
  simp only [on] at h
  simp only [on, ExceptT.run_bind, StateT.run_bind, h]
  rfl

/-- The step `x` carried out on `t` ends where `ok` holds of its result and the tree, or fails where
`fail` holds of the tree. -/
def Ensures (t : FileTree) (x : TreeStep α) (ok : α → FileTree → Prop) (fail : FileTree → Prop) :
    Prop :=
  match on x t with
  | (.ok a, t') => ok a t'
  | (.error _, t') => fail t'

namespace Ensures

variable {ok : α → FileTree → Prop} {ok' : β → FileTree → Prop} {fail : FileTree → Prop}

theorem of_ok {a : α} (h : on x t = (.ok a, t')) (ha : ok a t') : Ensures t x ok fail := by
  simpa only [Ensures, h] using ha

theorem of_error {fault : FileFault} (h : on x t = (.error fault, t')) (hf : fail t') :
    Ensures t x ok fail := by
  simpa only [Ensures, h] using hf

theorem ok_of_eq {a : α} (hx : Ensures t x ok fail) (h : on x t = (.ok a, t')) : ok a t' := by
  simpa only [Ensures, h] using hx

theorem fail_of_eq {fault : FileFault} (hx : Ensures t x ok fail)
    (h : on x t = (.error fault, t')) : fail t' := by
  simpa only [Ensures, h] using hx

/-- Assertions compose: what the first part ensures is what the second one starts from. -/
theorem bind (hx : Ensures t x ok fail) (hf : ∀ a t₁, ok a t₁ → Ensures t₁ (f a) ok' fail) :
    Ensures t (x >>= f) ok' fail := by
  rcases h : on x t with ⟨fault | a, t₁⟩
  · exact of_error (on_bind_of_error h) (hx.fail_of_eq h)
  · have hfa := hf a t₁ (hx.ok_of_eq h)
    simpa only [Ensures, on_bind_of_ok h] using hfa

theorem bind_of_ok {a : α} (h : on x t = (.ok a, t')) (hf : Ensures t' (f a) ok' fail) :
    Ensures t (x >>= f) ok' fail := by
  simpa only [Ensures, on_bind_of_ok h] using hf

/-- A check in front of a step changes nothing when it fails. -/
theorem check {e : Except FileFault α} (hfail : fail t)
    (hf : ∀ a, e = .ok a → Ensures t (f a) ok' fail) : Ensures t (liftExcept e >>= f) ok' fail := by
  cases e with
  | error fault => exact of_error (on_bind_of_error (on_liftExcept ..)) hfail
  | ok a => exact bind_of_ok (on_liftExcept ..) (hf a rfl)

end Ensures

end TreeStep

/-! ## Ways -/

namespace Location

/-- The place that legs lead to. -/
def along (l : Location) (legs : List Leg) : Location :=
  legs.foldl (fun l leg => l.child leg.name) l

/-- The places that legs pass, the last one included. -/
def places (l : Location) : List Leg → List Location
  | [] => []
  | leg :: rest => l.child leg.name :: places (l.child leg.name) rest

end Location

namespace Route

/-- The folders that a way passes. -/
def ancestors (route : Route) : List Location :=
  route.start.places route.folders

/-- The place that a way leads to. -/
def destination (route : Route) : Location :=
  (route.start.along route.folders).child route.last

end Route

namespace FileTree

open TreeStep (Ensures)

variable {t t' t₁ : FileTree} {l l' : Location} {n : Node} {places : List Location}

/-- Trees with the same files. -/
def SameFiles (t t' : FileTree) : Prop :=
  ∀ l content, t'.get? l = some (.file content) ↔ t.get? l = some (.file content)

theorem SameFiles.refl (t : FileTree) : t.SameFiles t := fun _ _ => Iff.rfl

/-- What is left of a list of nodes when those at one place are taken out. -/
theorem lookup_filter_ne (nodes : List (Location × Node)) (l l' : Location) :
    (nodes.filter (·.1 ≠ l)).lookup l' = if l' = l then none else nodes.lookup l' := by
  induction nodes with
  | nil => simp
  | cons node nodes ih =>
    obtain ⟨place, n⟩ := node
    by_cases hp : place = l
    · rw [List.filter_cons_of_neg (by simp [hp]), ih]
      split
      · rfl
      · next hne => rw [List.lookup_cons, beq_false_of_ne (hp ▸ hne)]
    · rw [List.filter_cons_of_pos (by simp [hp]), List.lookup_cons, List.lookup_cons, ih]
      by_cases hl : l' = place
      · simp [hl, hp]
      · rw [beq_false_of_ne hl]

/-- What is put at a place is found there, and all else is found where it was. -/
theorem get?_set (hl : l.isKnownFolder = false) (t : FileTree) (n : Node) (l' : Location) :
    (t.set l n).get? l' = if l' = l then some n else t.get? l' := by
  rw [get?, set, List.lookup_append, lookup_filter_ne]
  by_cases hl' : l' = l
  · simp [hl', hl]
  · simp [hl', get?, List.lookup_cons, beq_false_of_ne hl']

theorem not_isKnownFolder_of_get? (h : t.get? l ≠ some .folder) : l.isKnownFolder = false := by
  cases hl : l.isKnownFolder
  · rfl
  · simp [get?, hl] at h

/-! ## Folders on the way -/

/-- **A tree with folders added to it**: `t'` is `t`, but for folders at some of the places where
there was nothing. -/
def Paves (places : List Location) (t t' : FileTree) : Prop :=
  ∀ l, t'.get? l = t.get? l ∨ l ∈ places ∧ t.get? l = none ∧ t'.get? l = some .folder

namespace Paves

theorem refl (places : List Location) (t : FileTree) : Paves places t t := fun _ => Or.inl rfl

theorem mono {places' : List Location} (h : Paves places t t') (hle : places ⊆ places') :
    Paves places' t t' :=
  fun l => (h l).imp_right fun hl => ⟨hle hl.1, hl.2⟩

theorem trans (h : Paves places t t₁) (h' : Paves places t₁ t') : Paves places t t' := by
  intro l
  rcases h' l with hl' | ⟨hmem, hnone, hfolder⟩
  · rw [hl']
    exact h l
  · rcases h l with hl | ⟨-, -, hfolder'⟩
    · exact Or.inr ⟨hmem, hl ▸ hnone, hfolder⟩
    · rw [hfolder'] at hnone
      cases hnone

theorem of_set (hl : t.get? l = none) (hmem : l ∈ places) : Paves places t (t.set l .folder) := by
  have hknown : l.isKnownFolder = false := not_isKnownFolder_of_get? (t := t) (by simp [hl])
  intro l'
  rw [get?_set hknown]
  split
  · next heq =>
    subst heq
    exact Or.inr ⟨hmem, hl, rfl⟩
  · exact Or.inl rfl

/-- Folders stay. -/
theorem folder (h : Paves places t t') (hl : t.get? l = some .folder) :
    t'.get? l = some .folder := by
  rcases h l with hl' | ⟨-, -, hfolder⟩
  · rw [hl', hl]
  · exact hfolder

/-- No file comes, goes or changes. -/
theorem sameFiles (h : Paves places t t') : t.SameFiles t' := by
  intro l content
  rcases h l with hl | ⟨-, hnone, hfolder⟩
  · rw [hl]
  · simp [hnone, hfolder]

end Paves

/-- **Following a way makes the folders that are missing on it.** -/
theorem makeFolders_paves (l : Location) (legs : List Leg) (t : FileTree) :
    Ensures t (makeFolders l legs)
      (fun l' t' => l' = l.along legs ∧ Paves (l.places legs) t t' ∧
        ∀ p ∈ l.places legs, t'.get? p = some .folder)
      fun t' => Paves (l.places legs) t t' := by
  induction legs generalizing l t with
  | nil => exact Ensures.of_ok (TreeStep.on_pure l t) ⟨rfl, .refl _ t, by simp [Location.places]⟩
  | cons leg rest ih =>
    -- from a tree with a folder at the first place, the rest of the way is gone
    have hgo : ∀ t₁, Paves (l.places (leg :: rest)) t t₁ →
        t₁.get? (l.child leg.name) = some .folder →
        Ensures t₁ (makeFolders (l.child leg.name) rest)
          (fun l' t' => l' = l.along (leg :: rest) ∧ Paves (l.places (leg :: rest)) t t' ∧
            ∀ p ∈ l.places (leg :: rest), t'.get? p = some .folder)
          fun t' => Paves (l.places (leg :: rest)) t t' := by
      intro t₁ h₁ hfirst
      have hmore : ∀ {t'}, Paves ((l.child leg.name).places rest) t₁ t' →
          Paves (l.places (leg :: rest)) t t' := fun h =>
        h₁.trans (h.mono (List.subset_cons_self ..))
      rcases hrun : TreeStep.on (makeFolders (l.child leg.name) rest) t₁ with ⟨fault | l', t'⟩
      · exact Ensures.of_error hrun (hmore ((ih _ t₁).fail_of_eq hrun))
      · obtain ⟨rfl, hpaves, hfolders⟩ := (ih _ t₁).ok_of_eq hrun
        refine Ensures.of_ok hrun ⟨rfl, hmore hpaves, ?_⟩
        intro p hp
        rcases List.mem_cons.mp hp with rfl | hp
        · exact hpaves.folder hfirst
        · exact hfolders p hp
    rw [makeFolders]
    refine Ensures.check (.refl _ t) fun _ _ => Ensures.bind_of_ok (TreeStep.on_get t) ?_
    cases hnode : t.get? (l.child leg.name) with
    | none =>
      have hknown : (l.child leg.name).isKnownFolder = false :=
        not_isKnownFolder_of_get? (t := t) (by simp [hnode])
      refine Ensures.check (.refl _ t) fun _ _ => Ensures.bind_of_ok (TreeStep.on_modify _ t) ?_
      exact hgo _ (.of_set hnode (List.mem_cons_self ..)) (by rw [get?_set hknown, if_pos rfl])
    | some node =>
      cases node with
      | folder => exact hgo t (.refl _ t) hnode
      | file content => exact Ensures.of_error (TreeStep.on_throw ..) (.refl _ t)

theorem makeWay_paves (route : Route) (t : FileTree) :
    Ensures t (makeWay route)
      (fun l t' => l = route.start.along route.folders ∧ Paves route.ancestors t t' ∧
        ∀ p ∈ route.ancestors, t'.get? p = some .folder)
      fun t' => Paves route.ancestors t t' := by
  unfold makeWay
  refine Ensures.bind_of_ok (TreeStep.on_get t) ?_
  split
  · exact Ensures.of_error (TreeStep.on_bind_of_error (TreeStep.on_throw ..)) (.refl _ t)
  · exact makeFolders_paves ..

/-! ## Files -/

/-- **A tree with a file written to it.** -/
structure Written (route : Route) (content : ByteArray) (t t' : FileTree) : Prop where
  /-- The file has the new content. -/
  content_eq : t'.get? route.destination = some (.file content)
  /-- Every other file is as it was. -/
  files : ∀ l, l ≠ route.destination →
    ∀ c, t'.get? l = some (.file c) ↔ t.get? l = some (.file c)
  /-- The new folders are those on the way to the file that were missing. -/
  newFolders : ∀ l, t'.get? l = some .folder ∧ t.get? l ≠ some .folder ↔
    l ∈ route.ancestors ∧ t.get? l = none
  /-- No folder is gone. -/
  folders : ∀ l, t.get? l = some .folder → t'.get? l = some .folder
  /-- All folders on the way to the file are there. -/
  way : ∀ l ∈ route.ancestors, t'.get? l = some .folder

/-- A file put into a tree that has all the folders on the way to it. -/
theorem Written.of_paves {route : Route} (content : ByteArray) (h : Paves route.ancestors t t₁)
    (hway : ∀ p ∈ route.ancestors, t₁.get? p = some .folder)
    (hfree : t₁.get? route.destination ≠ some .folder) :
    Written route content t (t₁.set route.destination (.file content)) := by
  have hset : ∀ l, (t₁.set route.destination (.file content)).get? l =
      if l = route.destination then some (.file content) else t₁.get? l :=
    get?_set (not_isKnownFolder_of_get? hfree) t₁ _
  have hne : ∀ l, t₁.get? l = some .folder → l ≠ route.destination := by
    rintro l hl rfl
    exact hfree hl
  refine ⟨by rw [hset, if_pos rfl], ?_, ?_, ?_, ?_⟩
  · intro l hl c
    rw [hset, if_neg hl]
    exact h.sameFiles l c
  · intro l
    constructor
    · rintro ⟨hfolder, hold⟩
      have hl : l ≠ route.destination := by
        rintro rfl
        rw [hset, if_pos rfl] at hfolder
        cases hfolder
      rw [hset, if_neg hl] at hfolder
      rcases h l with heq | ⟨hmem, hnone, -⟩
      · exact absurd (heq ▸ hfolder) hold
      · exact ⟨hmem, hnone⟩
    · rintro ⟨hmem, hnone⟩
      rw [hset, if_neg (hne l (hway l hmem))]
      exact ⟨hway l hmem, by simp [hnone]⟩
  · intro l hl
    rw [hset, if_neg (hne l (h.folder hl))]
    exact h.folder hl
  · intro l hl
    rw [hset, if_neg (hne l (hway l hl))]
    exact hway l hl

/-- A way of folders whose names are not too long can be followed. -/
theorem follow_of_folders {legs : List Leg}
    (hnames : ∀ leg ∈ legs, leg.name.utf8ByteSize ≤ Path.maxNameBytes)
    (hway : ∀ p ∈ l.places legs, t.get? p = some .folder) :
    t.follow l legs = .ok (l.along legs) := by
  induction legs generalizing l with
  | nil => rfl
  | cons leg rest ih =>
    rw [List.forall_mem_cons] at hnames
    rw [Location.places, List.forall_mem_cons] at hway
    rw [follow, Path.checkName, if_neg (Nat.not_lt.mpr hnames.1), hway.1]
    exact ih hnames.2 hway.2

/-- What was written can be read back, unless a folder on the way has a name that is too long. -/
theorem Written.read_eq {path : String} {content : ByteArray}
    (h : Written (.ofPath path) content t t') (hpath : path ≠ "")
    (hcheck : Path.check path.utf8ByteSize path = .ok ())
    (hlast : Path.checkName (Route.ofPath path).last = .ok ())
    (hnames : ∀ leg ∈ (Route.ofPath path).folders, leg.name.utf8ByteSize ≤ Path.maxNameBytes) :
    t'.read path = .ok content := by
  have hfile := h.content_eq
  rw [Route.destination] at hfile
  have hfollow := follow_of_folders hnames h.way
  simp only [read, if_neg hpath, hcheck, hfollow, hlast, hfile, bind, Except.bind]
  rfl

/-- **Writing a file changes that file only**, and makes the folders that are missing on the way to
it. When it fails, it may have made some of these folders, and nothing else. -/
theorem write_frame (path : String) (content : ByteArray) (t : FileTree) :
    Ensures t (write path content)
      (fun _ t' => Written (.ofPath path) content t t' ∧
        ((∀ leg ∈ (Route.ofPath path).folders, leg.name.utf8ByteSize ≤ Path.maxNameBytes) →
          t'.read path = .ok content))
      fun t' => Paves (Route.ofPath path).ancestors t t' := by
  by_cases hpath : path = ""
  · rw [write, if_pos hpath]
    exact Ensures.of_error (TreeStep.on_bind_of_error (TreeStep.on_throw ..)) (.refl _ t)
  rw [write, if_neg hpath]
  refine (makeWay_paves (.ofPath path) t).bind ?_
  rintro _ t₁ ⟨rfl, hpaves, hway⟩
  -- from here on a failure leaves the folders that have been made
  refine Ensures.check hpaves fun _ hcheck => Ensures.check hpaves fun _ hlast => ?_
  refine Ensures.bind_of_ok (TreeStep.on_get t₁) ?_
  split
  · exact Ensures.of_error (TreeStep.on_throw ..) hpaves
  · next hfree =>
    have hwritten : Written (.ofPath path) content t _ := .of_paves content hpaves hway hfree
    exact Ensures.of_ok (TreeStep.on_modify ..) ⟨hwritten, hwritten.read_eq hpath hcheck hlast⟩

end FileTree

end Abacus
