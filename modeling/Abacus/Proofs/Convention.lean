import Mathlib.Data.BitVec
import Mathlib.Data.List.Induction
import Abacus.Proofs.Increment
import Abacus.Proofs.Preservation

/-!
# Conventional precedence

The sweeps give each operator a tier of its own. By convention `*` and `/` share one, and so do `+`
and `-`. For sums and differences the two ways of reading always have the same value, since words
are added modulo 2³²: a difference at the end of a sum may be taken first. For products and
quotients they are even the same tree, unless a `*` follows a `/` in the same run.

## Main definitions

* `Precedence`, `Precedence.Reads`: tables of precedences, and how an expression is read by one
* `Precedence.conventional`, `Precedence.evenSums`: the conventional table, and the one that differs
  from the sweeps only in sums
* `StarsFirst`: no `*` follows a `/` in the same run
* `Machine.holding`, `Sentence.Performed`: entries that do what a line says, for given contents

## Main results

* `Precedence.Reads.evenSums_of_starsFirst`: runs in which stars come first are read alike
* `Precedence.Reads.exists_reads`: taking differences before sums changes no value
* `compileLine_performs`: the entries of a line do what it says on any contents
* `compileLine_follows_convention`: and that is what the line says by convention
-/

namespace Abacus

/-! ## Tables of precedences -/

/-- A table of precedences: the level on which an operator joins, and the loosest level. -/
structure Precedence where
  level : BinOp → Nat
  loosest : Nat

namespace Precedence

/-- `*` and `/` bind alike, and tighter than `+` and `-`, which bind alike. -/
def conventional : Precedence where
  level := fun
    | .mul | .sdiv => 1
    | .sub | .add => 2
  loosest := 2

/-- `*` binds tighter than `/`, and that tighter than `+` and `-`, which bind alike. -/
def evenSums : Precedence where
  level := fun
    | .mul => 1
    | .sdiv => 2
    | .sub | .add => 3
  loosest := 3

/-- **How an expression is read by a table**: the operators of a level join what is read on the next
tighter one, from left to right. Operands and groups have level zero. -/
inductive Reads (table : Precedence) : Nat → List Char → Expr → Prop where
  | operand {w : List Char} (hne : w ≠ []) (hw : ∀ c ∈ w, c ∉ delimiters) :
    Reads table 0 w (.operand (String.ofList w))
  | group {cs : List Char} {e : Expr} (h : Reads table table.loosest cs e) :
    Reads table 0 ('(' :: cs ++ [')']) e
  | loosen {n : Nat} {cs : List Char} {e : Expr} (h : Reads table n cs e) : Reads table (n + 1) cs e
  | join {n : Nat} {cs ds : List Char} {a b : Expr} (op : BinOp) (hop : table.level op = n + 1)
    (h : Reads table (n + 1) cs a) (h' : Reads table n ds b) :
    Reads table (n + 1) (cs ++ op.char :: ds) (.binary op a b)

namespace Reads

variable {table : Precedence} {m n : Nat} {cs ds : List Char} {a e : Expr}

theorem loosenTo (h : table.Reads m cs e) (hmn : m ≤ n) : table.Reads n cs e := by
  induction hmn with
  | refl => exact h
  | step _ ih => exact .loosen ih

/-- One more atom in front is joined where the level of its operator begins. -/
theorem exists_prepend (ha : table.Reads 0 cs a) {op : BinOp} (hop : 1 ≤ table.level op)
    (h : table.Reads n ds e) (hn : table.level op ≤ n) :
    ∃ e', table.Reads n (cs ++ op.char :: ds) e' := by
  induction h with
  | operand _ _ => omega
  | group _ _ => omega
  | @loosen n _ _ h ih =>
    by_cases hle : table.level op ≤ n
    · obtain ⟨e', he'⟩ := ih hle
      exact ⟨e', .loosen he'⟩
    · exact ⟨_, .join op (by omega) (ha.loosenTo (Nat.zero_le _)) h⟩
  | join o ho _ h' ih _ =>
    obtain ⟨e', he'⟩ := ih hn
    exact ⟨_, by simpa using Reads.join o ho he' h'⟩

end Reads

/-- **Every expression is read by a table** that has a level for each operator. -/
theorem exists_reads_of_generates {table : Precedence}
    (htable : ∀ op, 1 ≤ table.level op ∧ table.level op ≤ table.loosest) {ok : String → Prop}
    {n : Nonterminal} {cs : List Char} (h : Generates ok n cs) :
    ∃ e, table.Reads (match n with | .atom => 0 | .expression => table.loosest) cs e := by
  induction h with
  | operand hne hw _ => exact ⟨_, .operand hne hw⟩
  | group _ ih =>
    obtain ⟨e, he⟩ := ih
    exact ⟨e, .group he⟩
  | single _ ih =>
    obtain ⟨e, he⟩ := ih
    exact ⟨e, he.loosenTo (Nat.zero_le _)⟩
  | join op _ _ ih ih' =>
    obtain ⟨a, ha⟩ := ih
    obtain ⟨e, he⟩ := ih'
    exact ha.exists_prepend (htable op).1 he (htable op).2

end Precedence

open Precedence (conventional evenSums)

/-! ## Products and quotients -/

/-- **No `*` follows a `/` in the same run.** What stands between them would be a run itself:
operands and groups that `*` and `/` join. -/
def StarsFirst (cs : List Char) : Prop :=
  ∀ front run back, cs = front ++ '/' :: (run ++ '*' :: back) → ¬ ∃ e, conventional.Reads 1 run e

namespace StarsFirst

variable {cs : List Char}

/-- The stars come first in every part of an expression, and so in every group. -/
theorem of_infix {part : List Char} (h : StarsFirst cs) (front back : List Char)
    (hcs : cs = front ++ (part ++ back)) : StarsFirst part := by
  rintro front' run back' rfl
  exact h (front ++ front') run (back' ++ back) (by simp [hcs])

/-- Without a `*` to the right of a `/` the stars come first. -/
theorem of_not_sublist (h : ¬ ['/', '*'].Sublist cs) : StarsFirst cs := by
  rintro front run back rfl -
  refine h (.trans ?_ (List.sublist_append_right front _))
  exact .cons_cons _ (List.singleton_sublist.mpr (by simp))

end StarsFirst

namespace Precedence.Reads

variable {n : Nat} {cs ds : List Char} {a b e : Expr}

/-- **Where the stars come first, the order of products and quotients is the conventional one**: the
tree is the same. On the level of runs, either no `/` stands outside of groups, or what follows the
last one is a run. -/
theorem evenSums_of_starsFirst (h : conventional.Reads n cs e) (hs : StarsFirst cs) :
    evenSums.Reads (match n with | 0 => 0 | n + 1 => n + 2) cs e ∧
    (n = 1 → evenSums.Reads 1 cs e ∨
      ∃ front run e', cs = front ++ '/' :: run ∧ conventional.Reads 1 run e') := by
  induction h with
  | operand hne hw => exact ⟨.operand hne hw, nofun⟩
  | @group cs e _ ih =>
    have hinner : StarsFirst cs := hs.of_infix ['('] [')'] rfl
    exact ⟨.group (ih hinner).1, nofun⟩
  | @loosen n cs e _ ih =>
    obtain ⟨hread, -⟩ := ih hs
    match n with
    | 0 => exact ⟨hread.loosen.loosen, fun _ => Or.inl hread.loosen⟩
    | n + 1 => exact ⟨hread.loosen, by omega⟩
  | @join n cs ds a b op hop h h' ih ih' =>
    obtain ⟨hleft, hrun⟩ := ih (hs.of_infix [] _ rfl)
    obtain ⟨hright, -⟩ := ih' (hs.of_infix (cs ++ [op.char]) [] (by simp))
    cases op with
    | mul =>
      obtain rfl : n = 0 := by simpa [conventional] using hop.symm
      rcases hrun rfl with hleft | ⟨front, run, e', rfl, he'⟩
      · have hjoin : evenSums.Reads 1 (cs ++ '*' :: ds) (.binary .mul a b) :=
          .join .mul rfl hleft hright
        exact ⟨hjoin.loosen, fun _ => Or.inl hjoin⟩
      · exact absurd ⟨e', he'⟩ (hs front run ds (by simp [BinOp.char]))
    | sdiv =>
      obtain rfl : n = 0 := by simpa [conventional] using hop.symm
      exact ⟨.join .sdiv rfl hleft hright.loosen, fun _ => Or.inr ⟨cs, ds, b, rfl, h'.loosen⟩⟩
    | sub =>
      obtain rfl : n = 1 := by simpa [conventional] using hop.symm
      exact ⟨.join .sub rfl hleft hright, by omega⟩
    | add =>
      obtain rfl : n = 1 := by simpa [conventional] using hop.symm
      exact ⟨.join .add rfl hleft hright, by omega⟩

/-! ## Sums and differences -/

/-- **A difference at the end of a sum may be taken first.** -/
theorem exists_reads_sub {ok : String → Prop} (h : Abacus.Reads ok .sum cs a)
    (h' : Abacus.Reads ok (.joined .sdiv) ds b) :
    ∃ e, Abacus.Reads ok .sum (cs ++ '-' :: ds) e ∧
      ∀ contents, e.eval contents = (Expr.binary .sub a b).eval contents := by
  cases h with
  | single _ h => exact ⟨_, .single .add (.join .sub h h'), fun _ => rfl⟩
  | @join front back a₁ a₂ _ h₁ h₂ =>
    refine ⟨.binary .add a₁ (.binary .sub a₂ b), ?_, fun contents => ?_⟩
    · simpa [BinOp.char] using Abacus.Reads.join .add h₁ (.join .sub h₂ h')
    · -- either side has a value exactly if all three parts have one
      cases h₁ : a₁.eval contents <;> cases h₂ : a₂.eval contents <;> cases h₃ : b.eval contents <;>
        simp [Expr.eval, BinOp.apply, h₁, h₂, h₃, add_sub_assoc]

/-- The tier of the stratified grammar that a level of `evenSums` is read on. -/
def tier : Nat → Tier
  | 0 => .atom
  | 1 => .joined .mul
  | 2 => .joined .sdiv
  | _ => .sum

theorem eval_binary_congr {contents : String → Word} {a' b' : Expr} (op : BinOp)
    (ha : a'.eval contents = a.eval contents) (hb : b'.eval contents = b.eval contents) :
    (Expr.binary op a' b').eval contents = (Expr.binary op a b).eval contents := by
  simp [Expr.eval, ha, hb]

/-- **Taking differences before sums changes no value.** -/
theorem exists_reads (h : evenSums.Reads n cs e) :
    ∃ e', Abacus.Reads (fun _ => True) (tier n) cs e' ∧
      ∀ contents, e'.eval contents = e.eval contents := by
  induction h with
  | operand hne hw => exact ⟨_, .operand hne hw trivial, fun _ => rfl⟩
  | group _ ih =>
    obtain ⟨e', he', heval⟩ := ih
    exact ⟨e', .group he', heval⟩
  | @loosen n _ _ _ ih =>
    obtain ⟨e', he', heval⟩ := ih
    match n with
    | 0 => exact ⟨e', .single .mul he', heval⟩
    | 1 => exact ⟨e', .single .sdiv he', heval⟩
    | 2 => exact ⟨e', .single .add (.single .sub he'), heval⟩
    | n + 3 => exact ⟨e', he', heval⟩
  | @join n _ _ _ _ op hop _ _ ih ih' =>
    obtain ⟨a', ha', hleft⟩ := ih
    obtain ⟨b', hb', hright⟩ := ih'
    cases op with
    | mul =>
      obtain rfl : n = 0 := by simpa [evenSums] using hop.symm
      exact ⟨_, .join .mul ha' hb', fun c => eval_binary_congr .mul (hleft c) (hright c)⟩
    | sdiv =>
      obtain rfl : n = 1 := by simpa [evenSums] using hop.symm
      exact ⟨_, .join .sdiv ha' hb', fun c => eval_binary_congr .sdiv (hleft c) (hright c)⟩
    | sub =>
      obtain rfl : n = 2 := by simpa [evenSums] using hop.symm
      obtain ⟨e', he', heval⟩ := exists_reads_sub ha' hb'
      refine ⟨e', he', fun c => ?_⟩
      rw [heval, eval_binary_congr .sub (hleft c) (hright c)]
    | add =>
      obtain rfl : n = 2 := by simpa [evenSums] using hop.symm
      exact ⟨_, .join .add ha' (.single .sub hb'), fun c =>
        eval_binary_congr .add (hleft c) (hright c)⟩

end Precedence.Reads

/-! ## Lines -/

/-- **How a line without blanks is read by a table.** -/
inductive Sentence.ReadsBy (table : Precedence) : List Char → Sentence → Prop where
  | assign {x : String} {r : List Char} {e : Expr} (hx : isName x = true)
    (h : table.Reads table.loosest r e) : ReadsBy table (x.toList ++ '=' :: r) (assign x e)
  | print {cs : List Char} {e : Expr} (h : table.Reads table.loosest cs e) :
    ReadsBy table cs (print e)

namespace Sentence.ReadsBy

variable {cs : List Char} {p : Sentence}

theorem evenSums_of_starsFirst (h : ReadsBy conventional cs p) (hs : StarsFirst cs) :
    ReadsBy evenSums cs p := by
  cases h with
  | @assign x r e hx h =>
    have hr : StarsFirst r := hs.of_infix (x.toList ++ ['=']) [] (by simp)
    exact .assign hx (h.evenSums_of_starsFirst hr).1
  | print h => exact .print (h.evenSums_of_starsFirst hs).1

/-- A line does the same as it does by the stratified grammar. -/
theorem exists_reads (h : ReadsBy evenSums cs p) :
    ∃ p', Sentence.Reads cs p' ∧ p'.target? = p.target? ∧ ∀ st, p'.exec st = p.exec st := by
  cases h with
  | @assign x r e hx h =>
    obtain ⟨e', he', heval⟩ := h.exists_reads
    exact ⟨.assign x e', .assign hx he', rfl, fun st => by simp [exec, heval]⟩
  | print h =>
    obtain ⟨e', he', heval⟩ := h.exists_reads
    exact ⟨.print e', .print he', rfl, fun st => by simp [exec, heval]⟩

end Sentence.ReadsBy

/-- A valid line is read by every table that has a level for each operator. -/
theorem Line.Valid.exists_readsBy {declared : List String} {cs : List Char}
    (h : Line.Valid declared cs) {table : Precedence}
    (htable : ∀ op, 1 ≤ table.level op ∧ table.level op ≤ table.loosest) :
    ∃ p, Sentence.ReadsBy table cs p := by
  rcases h with h | ⟨x, r, hx, rfl, h⟩
  · obtain ⟨e, he⟩ := Precedence.exists_reads_of_generates htable h
    exact ⟨.print e, .print he⟩
  · obtain ⟨e, he⟩ := Precedence.exists_reads_of_generates htable h
    exact ⟨.assign x e, .assign hx he⟩

/-! ## Executing the entries of a line -/

/-- A machine on which the variables `names` hold `contents`, and nothing else has happened. -/
def Machine.holding (contents : String → Word) (names : List String) : Machine where
  slots := fun x => if x ∈ names then some (contents x) else none

/-- **Entries do what a line says** where the variables `names` hold `contents`: they print what it
prints and leave the contents that it leaves, or stop in it if it has no value. -/
def Sentence.Performed (contents : String → Word) (names : List String) (line : Int)
    (entries : List Entry) (p : Sentence) : Prop :=
  match p.exec ⟨contents, []⟩ with
  | some st => ∃ m, Machine.run contents entries (.holding contents names) = .ok m ∧
    m.output = st.output ∧
    ∀ x, m.slots x = if x ∈ names ∨ p.target? = some x then some (st.contents x) else none
  | none => Machine.run contents entries (.holding contents names) = .error ⟨line, .undefined, []⟩

/-- Slots that are reserved one after the other hold what is in them at first. -/
theorem Machine.run_reservations (contents : String → Word) (line : Int) {names : List String}
    (hn : names.Nodup) :
    run contents (names.map fun x => ⟨line, .alloca ⟨x⟩⟩) {} = .ok (holding contents names) := by
  induction names using List.reverseRecOn with
  | nil => simp [run, holding, pure, Except.pure]
  | append_singleton names x ih =>
    obtain ⟨hnames, -, hx⟩ := List.nodup_append.mp hn
    have hnew : x ∉ names := fun hmem => hx x hmem x (by simp) rfl
    rw [List.map_append, List.map_singleton, run_concat_eq_ok_iff]
    refine ⟨holding contents names, ih hnames, ?_⟩
    have hslots : Function.update (holding contents names).slots x (some (contents x)) =
        (holding contents (names ++ [x])).slots := by
      funext y
      by_cases hy : y = x
      · simp [hy, holding]
      · simp [hy, holding]
    have hnone : (holding contents names).slots x = none := by simp [holding, hnew]
    simp only [Instr.exec, hnone, write, hslots]
    rfl

/-- **The entries of a line do what it says on any contents of the variables.** The log before them
is exchanged for one that only puts the contents in place. -/
theorem compileLine_performs {text : String} {s s' : Session} {new : List Entry} {p : Sentence}
    (hnames : ∀ x ∈ s.scope.sourceNames, isName x = true)
    (h : compileLine text s = .ok () s') (hnew : s'.log = s.log ++ new)
    (hp : Sentence.Reads (Text.dropBlanks text.toList) p) (contents : String → Word) :
    p.Performed contents s.scope.sourceNames (s.line + 1) new := by
  have hrun : compileLine text (Session.after { s with log := [] } s.log) = .ok () s' := by
    simpa [Session.after] using h
  rw [compileLine_after] at hrun
  cases hbare : compileLine text { s with log := [] } with
  | error fault b =>
    rw [hbare] at hrun
    cases hrun
  | ok u b =>
    rw [hbare] at hrun
    cases hrun
    obtain rfl : b.log = new := by simpa using hnew
    have hnodup : s.scope.sourceNames.Nodup := s.scope.nodup.filter _
    have hreserve := Machine.run_reservations contents s.line hnodup
    generalize s.scope.sourceNames.map (fun x => (⟨s.line, .alloca ⟨x⟩⟩ : Entry)) = older
      at hreserve
    have hline : compileLine text (Session.after { s with log := [] } older) =
        .ok () (b.after older) := by
      rw [compileLine_after, hbare]
      rfl
    have hm : (Session.after { s with log := [] } older).outcome contents =
        .ok (.holding contents s.scope.sourceNames) := by
      simpa [Session.outcome] using hreserve
    have ht : Tracks contents ⟨contents, []⟩ (Session.after { s with log := [] } older)
        (.holding contents s.scope.sourceNames) :=
      ⟨hnames, fun x hx => by simp_all [Machine.holding],
        fun x hx => by simp_all [Machine.holding], rfl⟩
    obtain ⟨hnext, hmem, hreach⟩ := compileLine_simulates hp ht hm hline
    have houtcome : (b.after older).outcome contents =
        Machine.run contents b.log (.holding contents s.scope.sourceNames) := by
      rw [Session.outcome, Session.after_log, Machine.run_append, hreserve]
      rfl
    unfold Sentence.Performed
    cases hexec : p.exec ⟨contents, []⟩ with
    | none =>
      rw [hexec, Session.Reaches, houtcome, hnext] at hreach
      exact hreach
    | some st =>
      rw [hexec, Session.Reaches, houtcome] at hreach
      obtain ⟨m, hrun, htracks⟩ := hreach
      refine ⟨m, hrun, htracks.output_eq, fun x => ?_⟩
      by_cases hx : x ∈ s.scope.sourceNames ∨ p.target? = some x
      · rw [if_pos hx, htracks.slots_of_mem x ((hmem x).mpr hx)]
      · rw [if_neg hx, (htracks.slots_of_notMem x fun hx' => hx ((hmem x).mp hx')).1]

/-- The line `cs` is read by the table, and the entries do what it says by every such reading,
whatever the variables hold. -/
def Precedence.Describes (table : Precedence) (cs : List Char) (names : List String) (line : Int)
    (entries : List Entry) : Prop :=
  (∃ p, Sentence.ReadsBy table cs p) ∧
  ∀ p, Sentence.ReadsBy table cs p → ∀ contents, p.Performed contents names line entries

/-- **The entries of a line do what it says by convention**, whatever the variables hold, if the
stars come first in it. What they do never depends on whether differences are taken before sums. -/
theorem compileLine_follows_convention (statements : List (Int × String)) {text : String}
    {s s' : Session} (hs : s = Session.afterAll statements) (h : compileLine text s = .ok () s') :
    ∃ new, s'.log = s.log ++ new ∧
      (StarsFirst (Text.dropBlanks text.toList) → conventional.Describes
        (Text.dropBlanks text.toList) s.scope.sourceNames (s.line + 1) new) ∧
      evenSums.Describes (Text.dropBlanks text.toList) s.scope.sourceNames (s.line + 1) new := by
  have hin : InStep s := hs ▸ InStep.fresh.attemptAll statements
  have hnames : ∀ x ∈ s.scope.sourceNames, isName x = true := fun x hx =>
    hin.named ⟨x⟩ (hin.alloca_mem hx)
  have hdeclares : s.Declares s.scope.sourceNames := fun x =>
    ⟨fun hx => ⟨hnames x hx, hx⟩, And.right⟩
  obtain ⟨-, hvalid⟩ := (compileLine_accepts text hdeclares rfl rfl).ok_of_eq h
  obtain ⟨new, hlog, -⟩ := ((compileLine_grows text s).ok_of_eq h).log_eq
  have heven : ∀ p, Sentence.ReadsBy evenSums (Text.dropBlanks text.toList) p → ∀ contents,
      p.Performed contents s.scope.sourceNames (s.line + 1) new := by
    intro p hp contents
    obtain ⟨p', hp', htarget, hexec⟩ := hp.exists_reads
    have hperformed := compileLine_performs hnames h hlog hp' contents
    rwa [Sentence.Performed, htarget, hexec] at hperformed
  refine ⟨new, hlog, fun hstars => ⟨?_, fun p hp => heven p (hp.evenSums_of_starsFirst hstars)⟩, ?_,
    heven⟩
  · exact hvalid.exists_readsBy fun op => by cases op <;> decide
  · exact hvalid.exists_readsBy fun op => by cases op <;> decide

/-- A difference in front of a sum, and a product in front of a quotient: the entries do what the
line says by convention. -/
theorem compileLine_follows_convention_mixed :
    ∃ s', compileLine "x - 2 + 8 * x / 3" (Session.afterAll [(1, "x = 7")]) = .ok () s' ∧
      StarsFirst "x-2+8*x/3".toList ∧
      ∃ new, s'.log = (Session.afterAll [(1, "x = 7")]).log ++ new ∧
        conventional.Describes "x-2+8*x/3".toList ["x"] 2 new := by
  have hstripped : Text.dropBlanks "x - 2 + 8 * x / 3".toList = "x-2+8*x/3".toList := by
    decide +kernel
  have hstars : StarsFirst "x-2+8*x/3".toList := .of_not_sublist (by decide)
  have hnames : (Session.afterAll [(1, "x = 7")]).scope.sourceNames = ["x"] := by decide +kernel
  have hline : (Session.afterAll [(1, "x = 7")]).line = 1 := by decide +kernel
  obtain ⟨s', h⟩ : ∃ s', compileLine "x - 2 + 8 * x / 3" (Session.afterAll [(1, "x = 7")]) =
      .ok () s' := by
    decide +kernel
  obtain ⟨new, hlog, hconventional, -⟩ := compileLine_follows_convention [(1, "x = 7")] rfl h
  rw [hstripped, hnames, hline] at hconventional
  exact ⟨s', h, hstars, new, hlog, hconventional hstars⟩

end Abacus
