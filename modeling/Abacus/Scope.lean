import Abacus.Instr

/-!
# Scopes

The scope of a session holds every declared name once, in the order of first declaration: the
names of source variables and, told apart by a percent sign, those of temporaries.

## Main definitions

* `Scope`: declared names in order
* `Scope.insert`: declare a name
* `Scope.isTemporary`, `Scope.sourceNames`, `Scope.temporaries`: the two sorts of names

## Main results

* `Scope.mem_insert`, `Scope.names_insert_of_notMem`, `Scope.insert_of_mem`: what declaring does
* `Scope.isTemporary_name`: the name of a temporary is one
-/

namespace Abacus

/-- The declared names, each once, in the order in which they were first declared. -/
structure Scope where
  names : List String := []
  nodup : names.Nodup := by exact List.nodup_nil
  deriving DecidableEq, Repr

namespace Scope

instance : Membership String Scope where
  mem s name := name ∈ s.names

instance (name : String) (s : Scope) : Decidable (name ∈ s) :=
  inferInstanceAs (Decidable (name ∈ s.names))

theorem mem_def {name : String} {s : Scope} : name ∈ s ↔ name ∈ s.names := Iff.rfl

theorem nodup_concat {names : List String} {name : String} (hn : names.Nodup)
    (h : name ∉ names) : (names ++ [name]).Nodup := by
  rw [List.nodup_append]
  refine ⟨hn, by simp, fun a ha b hb e => h ?_⟩
  rw [← List.mem_singleton.mp hb, ← e]
  exact ha

/-- Declare a name; a second declaration changes nothing. -/
def insert (s : Scope) (name : String) : Scope :=
  if h : name ∈ s then s else ⟨s.names ++ [name], nodup_concat s.nodup h⟩

theorem insert_of_mem {s : Scope} {name : String} (h : name ∈ s) : s.insert name = s := by
  simp [insert, h]

theorem names_insert_of_notMem {s : Scope} {name : String} (h : name ∉ s) :
    (s.insert name).names = s.names ++ [name] := by
  simp [insert, h]

@[simp] theorem mem_insert {s : Scope} {a name : String} :
    a ∈ s.insert name ↔ a ∈ s ∨ a = name := by
  by_cases h : name ∈ s
  · simp only [insert_of_mem h]
    exact ⟨Or.inl, fun | .inl ha => ha | .inr e => e ▸ h⟩
  · simp [mem_def, names_insert_of_notMem h]

/-- A name that begins with a percent sign belongs to a temporary. -/
def isTemporary (name : String) : Bool :=
  name.toList.head? = some '%'

@[simp] theorem isTemporary_name (t : Temp) : isTemporary t.name = true := by
  simp [isTemporary, Temp.name]

/-- The declared names of source variables, in order. -/
def sourceNames (s : Scope) : List String :=
  s.names.filter (!isTemporary ·)

/-- The declared names of temporaries, in order. -/
def temporaries (s : Scope) : List String :=
  s.names.filter isTemporary

end Scope

end Abacus
