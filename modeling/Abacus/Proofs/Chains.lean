import Mathlib.Data.List.DropRight
import Abacus.Proofs.Emission

/-!
# What one sweep does

A sweep takes the leftmost sign of its kind, combines its neighbours, and goes on. A loop that
starts its search anew each time does the same. What this comes to can be said of the fragment as a
whole. It is cut wherever two items stand side by side of which neither is the sign. A part is then
an item that stays as it is, or a chain of operands with signs between them, and a chain becomes the
temporary of its last operation. The operations of a chain are nested to the left, and the chains
are computed from left to right.

The sweep stops at the first sign that lacks an operand or has one without a value. What stands
before that sign has been swept as if it were all, and what stands after the last operand used is
left as it was.

## Main definitions

* `Fragment.Chain`: an item with the signs and operands that follow it
* `Fragment.collapse`: what becomes of a row of chains
* `Fragment.Leads`: how far a fragment is a row of chains

## Main results

* `Fragment.sweepFrom_chains`, `Fragment.sweepFrom_of_flaw`: a sweep goes through a row of chains,
  and stops at a sign with a flaw
* `Fragment.Leads.exists_chains`: a fragment is a row of chains to its end, or up to such a sign
* `Fragment.splitBy_chains`, `Fragment.length_collapse`, `Fragment.operations_collapse`: where a row
  of chains is cut, and what is left and emitted
* `Fragment.sweep_collapses_chains`: what a sweep does
-/

namespace Abacus

namespace Fragment

/-! ## Chains -/

/-- Two items side by side of which one is a token of kind `k`. -/
def touching (k : Kind) (x y : Item) : Bool :=
  x.hasKind k || y.hasKind k

/-- **A chain**: an item, and the signs of kind `k` that follow it, each with the operand on its
right. An item that no sign follows may be anything but such a sign. -/
structure Chain (k : Kind) where
  first : Item
  /-- The signs, each with the operand on its right. -/
  links : List (Item × Item)
  not_sign : first.hasKind k = false
  sign : ∀ l ∈ links, l.1.hasKind k = true
  operands : ∀ l ∈ links, first.isOperand = true ∧ l.2.isOperand = true

namespace Chain

variable {k : Kind} (c : Chain k)

/-- The items of a chain, in order. -/
def items : Fragment :=
  c.first :: c.links.flatMap fun l => [l.1, l.2]

/-- All operands that are combined in the chain have a value where `vars` are declared. -/
def Resolves (vars : List String) : Prop :=
  ∀ l ∈ c.links, c.first.Resolves vars ∧ l.2.Resolves vars

/-- An item on its own. -/
def single (x : Item) (hx : x.hasKind k = false) : Chain k where
  first := x
  links := []
  not_sign := hx
  sign := nofun
  operands := nofun

/-- A chain with one more operand. -/
def extend (sign right : Item) (hsign : sign.hasKind k = true) (hfirst : c.first.isOperand = true)
    (hright : right.isOperand = true) : Chain k where
  first := c.first
  links := c.links ++ [(sign, right)]
  not_sign := c.not_sign
  sign := by
    intro l hl
    rcases List.mem_append.mp hl with hl | hl
    · exact c.sign l hl
    · rw [List.mem_singleton.mp hl]
      exact hsign
  operands := by
    intro l hl
    rcases List.mem_append.mp hl with hl | hl
    · exact c.operands l hl
    · rw [List.mem_singleton.mp hl]
      exact ⟨hfirst, hright⟩

end Chain

/-- **What becomes of a row of chains**, with temporaries numbered from `n` on: the instructions,
and what holds the result of each chain. -/
def collapse {k : Kind} (op : BinOp) : (n : Int) → List (Chain k) → List Instr × Fragment
  | _, [] => ([], [])
  | n, c :: cs =>
    let here := nested op n c.first (c.links.map (·.2))
    let later := collapse op (n + here.1.length) cs
    (here.1 ++ later.1, here.2 :: later.2)

section Sweep

variable {k : Kind} {op : BinOp} {before rest : List Item} {s : Session}

/-- A sweep goes through the links of a chain. -/
theorem sweepFrom_links {x : Item} {links : List (Item × Item)}
    (hsign : ∀ l ∈ links, l.1.hasKind k = true)
    (husable : ∀ l ∈ links, x.Usable s.scope.sourceNames ∧ l.2.Usable s.scope.sourceNames) :
    sweepFrom k op.mnemonic (x :: before) (links.flatMap (fun l => [l.1, l.2]) ++ rest) s =
      sweepFrom k op.mnemonic ((nested op s.nextTemp x (links.map (·.2))).2 :: before) rest
        (s.emitted (nested op s.nextTemp x (links.map (·.2))).1) := by
  induction links generalizing x s with
  | nil => simp [nested]
  | cons l links ih =>
    obtain ⟨hx, hl⟩ := husable l (by simp)
    have hrest : ∀ l' ∈ links, l'.2.Usable s.scope.sourceNames := fun l' hl' =>
      (husable l' (List.mem_cons_of_mem l hl')).2
    simp only [List.flatMap_cons, List.cons_append, List.nil_append, List.map_cons]
    rw [sweepFrom_cons_of_neighbours (hsign l (by simp)), combine_of_usable hx hl]
    simp only
    rw [ih (fun l' hl' => hsign l' (List.mem_cons_of_mem l hl')) fun l' hl' => ?_]
    · simp only [nested, Session.nextTemp_emitted, Session.emitted_append]
    · exact ⟨Item.usable_temp _ _, by simpa using hrest l' hl'⟩

/-- **A sweep goes through a row of chains** whose operands have values. -/
theorem sweepFrom_chains {cs : List (Chain k)} (hcs : ∀ c ∈ cs, c.Resolves s.scope.sourceNames) :
    sweepFrom k op.mnemonic before (cs.flatMap Chain.items ++ rest) s =
      sweepFrom k op.mnemonic ((collapse op s.nextTemp cs).2.reverse ++ before) rest
        (s.emitted (collapse op s.nextTemp cs).1) := by
  induction cs generalizing before s with
  | nil => simp [collapse]
  | cons c cs ih =>
    have hc : ∀ l ∈ c.links, c.first.Usable s.scope.sourceNames ∧
        l.2.Usable s.scope.sourceNames := fun l hl =>
      ⟨⟨(c.operands l hl).1, (hcs c (by simp) l hl).1⟩, (c.operands l hl).2,
        (hcs c (by simp) l hl).2⟩
    rw [List.flatMap_cons, List.append_assoc, Chain.items, List.cons_append,
      sweepFrom_cons_of_not c.not_sign, sweepFrom_links c.sign hc, ih]
    · simp [collapse, Session.emitted_append]
    · intro c' hc'
      simpa using hcs c' (List.mem_cons_of_mem c hc')

/-- **A sweep stops at a sign with a flaw**, and has emitted one load for it at most. -/
theorem sweepFrom_of_flaw (op : BinOp) {x : Item} {after : List Item} {fault : Fault}
    (hx : x.hasKind k = true) (hflaw : flaw? s x.text before.head? after.head? = some fault) :
    ∃ loads, sweepFrom k op.mnemonic before (x :: after) s =
        (⟨before.reverse ++ x :: after, some fault⟩, s.emitted loads) ∧
      MayLoad s.nextTemp loads := by
  match before, after with
  | [], after =>
    obtain rfl : Fault.rejected ⟨s.line, .missingOperand x.text⟩ = fault := by
      simpa [flaw?] using hflaw
    exact ⟨[], by simp [sweepFrom_front hx], Or.inl rfl⟩
  | left :: before, [] =>
    obtain rfl : Fault.rejected ⟨s.line, .missingOperand x.text⟩ = fault := by
      simpa [flaw?] using hflaw
    exact ⟨[], by simp [sweepFrom_last hx], Or.inl rfl⟩
  | left :: before, right :: after =>
    have hcombine := (Session.Advances.refl s).combine x.text op left right
    have hflaw : flaw? s x.text left right = some fault := hflaw
    cases hrun : combine x.text op.mnemonic left right s with
    | ok t s' =>
      rw [(hcombine.ok_of_eq hrun).1] at hflaw
      cases hflaw
    | error fault' s' =>
      rw [(hcombine.fail_of_eq hrun).1] at hflaw
      cases hflaw
      obtain ⟨loads, rfl, hloads⟩ := exists_loads_of_combine hrun
      exact ⟨loads, by rw [sweepFrom_cons_of_neighbours hx, hrun], hloads⟩

end Sweep

/-! ## Fragments as rows of chains -/

section Rows

variable {k : Kind} {s : Session}

/-- A chain is one item, or ends in a sign and the operand on its right. -/
theorem Chain.items_cases (c : Chain k) :
    c.links = [] ∧ c.items = [c.first] ∨ ∃ l ∈ c.links, ∃ front, c.items = front ++ [l.1, l.2] := by
  rcases List.eq_nil_or_concat c.links with hnil | ⟨links, l, hlinks⟩
  · exact Or.inl ⟨hnil, by simp [items, hnil]⟩
  · refine Or.inr ⟨l, by simp [hlinks], c.first :: links.flatMap fun l => [l.1, l.2], ?_⟩
    simp [items, hlinks]

theorem Chain.items_ne_nil (c : Chain k) : c.items ≠ [] :=
  List.cons_ne_nil _ _

/-- Where the last item of a chain can be used, the first one can be. -/
theorem Chain.first_usable {c : Chain k} {vars : List String} {last : Item} (hc : c.Resolves vars)
    (hitems : c.items.getLast? = some last) (hlast : last.Usable vars) : c.first.Usable vars := by
  rcases c.items_cases with ⟨-, hsingle⟩ | ⟨l, hl, -⟩
  · obtain rfl : c.first = last := by simpa [hsingle] using hitems
    exact hlast
  · exact ⟨(c.operands l hl).1, (hc l hl).1⟩

theorem getLast?_chains_concat (cs : List (Chain k)) (c : Chain k) :
    ((cs ++ [c]).flatMap Chain.items).getLast? = c.items.getLast? := by
  rw [List.flatMap_append, List.flatMap_singleton, List.getLast?_append_of_ne_nil _ c.items_ne_nil]

/-- **The fragment `f` begins as a row of chains** whose operands have values, and goes on with
`rest`. -/
structure Leads (s : Session) (f : Fragment) (cs : List (Chain k)) (rest : Fragment) : Prop where
  eq_append : f = cs.flatMap Chain.items ++ rest
  resolves : ∀ c ∈ cs, c.Resolves s.scope.sourceNames

namespace Leads

variable {f rest : Fragment} {cs : List (Chain k)} {x : Item}

/-- An item that is no sign is a chain of its own. -/
theorem pass (h : Leads s f cs (x :: rest)) (hx : x.hasKind k = false) :
    Leads s f (cs ++ [.single x hx]) rest where
  eq_append := by simp [h.eq_append, Chain.items, Chain.single]
  resolves := by
    intro c hc
    rcases List.mem_append.mp hc with hc | hc
    · exact h.resolves c hc
    · rw [List.mem_singleton.mp hc]
      exact nofun

/-- A sign without a flaw goes into the chain on its left, with the operand on its right. -/
theorem link (h : Leads s f cs (x :: rest)) (hx : x.hasKind k = true)
    (hflaw : flaw? s x.text (cs.flatMap Chain.items).getLast? rest.head? = none) :
    ∃ cs' right rest', rest = right :: rest' ∧ Leads (k := k) s f cs' rest' := by
  obtain ⟨left, right, hleft, hright, hl, hr⟩ := exists_of_flaw?_eq_none hflaw
  obtain ⟨rest', rfl⟩ := List.head?_eq_some_iff.mp hright
  rcases List.eq_nil_or_concat cs with rfl | ⟨cs, c, rfl⟩
  · simp at hleft
  rw [List.concat_eq_append] at h hleft
  rw [getLast?_chains_concat] at hleft
  have hc : c.Resolves s.scope.sourceNames := h.resolves c (by simp)
  have hfirst := Chain.first_usable hc hleft hl
  refine ⟨cs ++ [c.extend x right hx hfirst.1 hr.1], right, rest', rfl, ?_, ?_⟩
  · simp [h.eq_append, Chain.items, Chain.extend]
  · intro c' hc'
    rcases List.mem_append.mp hc' with hc' | hc'
    · exact h.resolves c' (by simp [hc'])
    · rw [List.mem_singleton.mp hc']
      intro l hl
      rcases List.mem_append.mp hl with hl | hl
      · exact hc l hl
      · rw [List.mem_singleton.mp hl]
        exact ⟨hfirst.2, hr.2⟩

/-- **How far a fragment is a row of chains** whose operands have values: to its end, or up to a
sign with a flaw. -/
theorem exists_chains (h : Leads s f cs rest) :
    ∃ (cs' : List (Chain k)) (rest' : Fragment), Leads s f cs' rest' ∧
      (rest' = [] ∨ ∃ x after fault, rest' = x :: after ∧ x.hasKind k = true ∧
        flaw? s x.text (cs'.flatMap Chain.items).getLast? after.head? = some fault) := by
  -- by length, since a sign is passed together with the operand on its right
  induction hn : rest.length using Nat.strongRecOn generalizing cs rest with
  | ind n ih =>
    subst hn
    rcases rest with _ | ⟨x, rest⟩
    · exact ⟨cs, [], h, Or.inl rfl⟩
    cases hx : x.hasKind k with
    | false => exact ih rest.length (by simp) (h.pass hx) rfl
    | true =>
      cases hflaw : flaw? s x.text (cs.flatMap Chain.items).getLast? rest.head? with
      | some fault => exact ⟨cs, x :: rest, h, Or.inr ⟨x, rest, fault, rfl, hx, hflaw⟩⟩
      | none =>
        obtain ⟨cs', right, rest', rfl, h'⟩ := h.link hx hflaw
        exact ih rest'.length (by simp only [List.length_cons]; omega) h' rfl

end Leads

end Rows

/-! ## What chains collapse to -/

section Collapse

variable {k : Kind} (op : BinOp) (n : Int)

theorem collapse_append (cs ds : List (Chain k)) :
    collapse op n (cs ++ ds) =
      ((collapse op n cs).1 ++ (collapse op (n + (collapse op n cs).1.length) ds).1,
        (collapse op n cs).2 ++ (collapse op (n + (collapse op n cs).1.length) ds).2) := by
  induction cs generalizing n with
  | nil => simp [collapse]
  | cons c cs ih => simp [collapse, ih, Int.add_assoc]

/-- Items that no sign follows stay as they are. -/
theorem collapse_of_links_eq_nil {cs : List (Chain k)} (h : ∀ c ∈ cs, c.links = []) :
    collapse op n cs = ([], cs.flatMap Chain.items) := by
  induction cs with
  | nil => rfl
  | cons c cs ih =>
    have hc := h c (by simp)
    have hcs := ih fun c' hc' => h c' (List.mem_cons_of_mem c hc')
    simp [collapse, nested, hc, hcs, Chain.items]

/-- **An item that no sign follows is kept, and a chain is replaced by a new temporary.** -/
theorem forall₂_collapse (cs : List (Chain k)) :
    List.Forall₂ (fun c y => (c.links = [] → y = c.first) ∧ (c.links ≠ [] →
        ∃ t, y = .temp t ∧ n ≤ t.id ∧ t.id < n + (collapse op n cs).1.length))
      cs (collapse op n cs).2 := by
  induction cs generalizing n with
  | nil => exact .nil
  | cons c cs ih =>
    simp only [collapse, List.length_append, Int.natCast_add]
    refine .cons ⟨fun hnil => by simp [hnil, nested], fun hne => ?_⟩ ((ih _).imp ?_)
    · have hne' : c.links.map (·.2) ≠ [] := by simpa using hne
      obtain ⟨hpos, hlast⟩ := nested_of_ne_nil op n c.first hne'
      exact ⟨_, hlast, by simp only; omega, by simp only; omega⟩
    · rintro c' y ⟨hkept, hnew⟩
      refine ⟨hkept, fun hne => ?_⟩
      obtain ⟨t, rfl, hle, hlt⟩ := hnew hne
      exact ⟨t, rfl, by omega, by omega⟩

/-- What stands last in a row of chains is as good as what holds the last one. -/
theorem alike_collapse {s : Session} {cs : List (Chain k)}
    (hcs : ∀ c ∈ cs, c.Resolves s.scope.sourceNames) :
    Alike s (cs.flatMap Chain.items).getLast? (collapse op n cs).2.getLast? := by
  rcases List.eq_nil_or_concat cs with rfl | ⟨cs, c, rfl⟩
  · exact .refl none
  rw [List.concat_eq_append] at hcs ⊢
  have hholder : (collapse op n (cs ++ [c])).2.getLast? =
      some (nested op (n + (collapse op n cs).1.length) c.first (c.links.map (·.2))).2 := by
    simp [collapse_append, collapse]
  rw [getLast?_chains_concat, hholder]
  rcases c.items_cases with ⟨hnil, hitems⟩ | ⟨l, hl, front, hitems⟩
  · rw [hitems, hnil]
    exact .refl _
  · have hne : c.links.map (·.2) ≠ [] := List.ne_nil_of_mem (List.mem_map_of_mem hl)
    have hlast : c.items.getLast? = some l.2 := by simp [hitems]
    rw [hlast, (nested_of_ne_nil op _ c.first hne).2]
    exact .temp (c.operands l hl).2 (Item.fault?_eq_none_iff.mpr (hcs c (by simp) l hl).2) _

end Collapse

section Signs

variable {k : Kind}

/-- An operand is no sign. -/
theorem not_hasKind_of_isOperator (hk : k.isOperator = true) {x : Item} (hx : x.isOperand = true) :
    x.hasKind k = false := by
  obtain ⟨op, rfl⟩ : ∃ op : BinOp, op.sign = k := by
    cases k with
    | star => exact ⟨.mul, rfl⟩
    | slash => exact ⟨.sdiv, rfl⟩
    | minus => exact ⟨.sub, rfl⟩
    | plus => exact ⟨.add, rfl⟩
    | leftParen | rightParen | equals | operand => cases hk
  exact not_hasKind_of_isOperand hx op

/-- A chain has a sign for each operand but the first. -/
theorem Chain.countP_items (hk : k.isOperator = true) (c : Chain k) :
    c.items.countP (·.hasKind k) = c.links.length ∧
      c.items.length = 1 + 2 * c.links.length := by
  suffices hlinks : ∀ links : List (Item × Item),
      (∀ l ∈ links, l.1.hasKind k = true ∧ l.2.hasKind k = false) →
      (links.flatMap fun l => [l.1, l.2]).countP (·.hasKind k) = links.length ∧
        (links.flatMap fun l => [l.1, l.2]).length = 2 * links.length by
    obtain ⟨hcount, hlength⟩ := hlinks c.links fun l hl =>
      ⟨c.sign l hl, not_hasKind_of_isOperator hk (c.operands l hl).2⟩
    simp only [items, List.countP_cons, List.length_cons, c.not_sign, hcount, hlength]
    exact ⟨rfl, Nat.add_comm ..⟩
  intro links
  induction links with
  | nil => exact fun _ => ⟨rfl, rfl⟩
  | cons l links ih =>
    intro h
    obtain ⟨hcount, hlength⟩ := ih fun l' hl' => h l' (List.mem_cons_of_mem l hl')
    obtain ⟨hsign, hright⟩ := h l (by simp)
    have hpair : [l.1, l.2].countP (·.hasKind k) = 1 := by simp [hsign, hright]
    simp only [List.flatMap_cons, List.countP_append, hpair, hcount, List.length_append, hlength,
      List.length_cons, List.length_nil]
    omega

/-- No chain ends in a sign. -/
theorem Chain.not_hasKind_getLast (hk : k.isOperator = true) (c : Chain k) :
    (c.items.getLast c.items_ne_nil).hasKind k = false := by
  rcases c.items_cases with ⟨-, hitems⟩ | ⟨l, hl, front, hitems⟩
  · simpa [hitems] using c.not_sign
  · simpa [hitems] using not_hasKind_of_isOperator hk (c.operands l hl).2

/-- Of two items side by side in a chain, one is a sign. -/
theorem Chain.isChain_items (c : Chain k) :
    c.items.IsChain fun x y => touching k x y = true := by
  suffices hlinks : ∀ (links : List (Item × Item)) (x : Item),
      (∀ l ∈ links, l.1.hasKind k = true) →
      (x :: links.flatMap fun l => [l.1, l.2]).IsChain fun x y => touching k x y = true from
    hlinks c.links c.first c.sign
  intro links
  induction links with
  | nil => exact fun x _ => .singleton x
  | cons l links ih =>
    intro x h
    have hsign := h l (by simp)
    refine .cons_cons (by simp [touching, hsign]) (.cons_cons (by simp [touching, hsign]) ?_)
    exact ih l.2 fun l' hl' => h l' (List.mem_cons_of_mem l hl')

/-- **One operation for each sign.** -/
theorem operations_collapse (hk : k.isOperator = true) (op : BinOp) (n : Int)
    (cs : List (Chain k)) :
    ((collapse op n cs).1.filterMap Instr.operation?).map (·.1) =
      List.replicate ((cs.flatMap Chain.items).countP (·.hasKind k)) op := by
  induction cs generalizing n with
  | nil => rfl
  | cons c cs ih =>
    simp only [collapse, List.filterMap_append, List.map_append, operations_nested, ih,
      List.flatMap_cons, List.countP_append, (c.countP_items hk).1, List.length_map,
      List.replicate_append_replicate]

/-- Every sign goes, together with one operand. -/
theorem length_collapse (hk : k.isOperator = true) (op : BinOp) (n : Int) (cs : List (Chain k)) :
    (collapse op n cs).2.length + 2 * (cs.flatMap Chain.items).countP (·.hasKind k) =
      (cs.flatMap Chain.items).length := by
  induction cs generalizing n with
  | nil => rfl
  | cons c cs ih =>
    have hcs := ih (n + (nested op n c.first (c.links.map (·.2))).1.length)
    obtain ⟨hcount, hlength⟩ := c.countP_items hk
    simp only [collapse, List.flatMap_cons, List.countP_append, List.length_append,
      List.length_cons, hcount, hlength]
    omega

/-- **A row of chains is cut into its chains** wherever two items stand side by side of which
neither is a sign. -/
theorem splitBy_chains (hk : k.isOperator = true) (cs : List (Chain k)) :
    (cs.flatMap Chain.items).splitBy (touching k) = cs.map Chain.items := by
  rw [List.flatMap_def]
  refine List.splitBy_flatten ?_ ?_ ?_
  · intro hmem
    obtain ⟨c, -, hc⟩ := List.mem_map.mp hmem
    exact c.items_ne_nil hc
  · intro items hmem
    obtain ⟨c, -, rfl⟩ := List.mem_map.mp hmem
    exact c.isChain_items
  · refine (List.isChain_map _).mpr (List.Pairwise.isChain ?_)
    refine List.pairwise_of_forall_mem_list fun b hb c hc => ⟨b.items_ne_nil, c.items_ne_nil, ?_⟩
    have hlast := b.not_hasKind_getLast hk
    have hhead : (c.items.head c.items_ne_nil).hasKind k = false := c.not_sign
    simp [touching, hlast, hhead]

end Signs

/-! ## Sweeps -/

section Sweeps

variable {k : Kind} {op : BinOp}

/-- A row of chains whose operands have values is swept to its end. -/
theorem sweep_chains {s : Session} {cs : List (Chain k)}
    (hcs : ∀ c ∈ cs, c.Resolves s.scope.sourceNames) :
    sweep (cs.flatMap Chain.items) k op.mnemonic s =
      (⟨(collapse op s.nextTemp cs).2, none⟩, s.emitted (collapse op s.nextTemp cs).1) := by
  rw [sweep, ← List.append_nil (cs.flatMap Chain.items), sweepFrom_chains hcs, sweepFrom_nil,
    List.append_nil, List.reverse_reverse]

/-- **The two ways in which a sweep ends.** The fragment is a row of chains, or it is one up to a
sign with a flaw. -/
theorem sweep_cases (k : Kind) (op : BinOp) (f : Fragment) (s : Session) :
    ∃ cs : List (Chain k), (∀ c ∈ cs, c.Resolves s.scope.sourceNames) ∧
      (f = cs.flatMap Chain.items ∨
        ∃ x after fault loads, f = cs.flatMap Chain.items ++ x :: after ∧ x.hasKind k = true ∧
          flaw? s x.text (cs.flatMap Chain.items).getLast? after.head? = some fault ∧
          f.sweep k op.mnemonic s = (⟨(collapse op s.nextTemp cs).2 ++ x :: after, some fault⟩,
            (s.emitted (collapse op s.nextTemp cs).1).emitted loads) ∧
          MayLoad (s.nextTemp + (collapse op s.nextTemp cs).1.length) loads) := by
  have hstart : Leads (k := k) s f [] f := ⟨rfl, by simp⟩
  obtain ⟨cs, rest, ⟨hf, hcs⟩, hrest⟩ := hstart.exists_chains
  refine ⟨cs, hcs, ?_⟩
  rcases hrest with rfl | ⟨x, after, fault, rfl, hx, hflaw⟩
  · exact Or.inl (by simpa using hf)
  · have hstop : flaw? (s.emitted (collapse op s.nextTemp cs).1) x.text
        (collapse op s.nextTemp cs).2.reverse.head? after.head? = some fault := by
      rw [flaw?_emitted, List.head?_reverse, ← hflaw]
      exact (flaw?_congr (alike_collapse op s.nextTemp hcs) (.refl _) _).symm
    obtain ⟨loads, hrun, hloads⟩ := sweepFrom_of_flaw op hx hstop
    refine Or.inr ⟨x, after, fault, loads, hf, hx, hflaw, ?_, hloads⟩
    rw [hf, sweep, sweepFrom_chains hcs, List.append_nil, hrun, List.reverse_reverse]

/-- What a sweep that succeeds has gone through. -/
theorem exists_chains_of_sweep {f g : Fragment} {s s' : Session}
    (h : f.sweep k op.mnemonic s = (⟨g, none⟩, s')) :
    ∃ cs : List (Chain k), (∀ c ∈ cs, c.Resolves s.scope.sourceNames) ∧
      f = cs.flatMap Chain.items ∧ g = (collapse op s.nextTemp cs).2 ∧
      s' = s.emitted (collapse op s.nextTemp cs).1 := by
  obtain ⟨cs, hcs, rfl | ⟨x, after, fault, loads, -, -, -, hrun, -⟩⟩ := sweep_cases k op f s
  · rw [sweep_chains hcs] at h
    cases h
    exact ⟨cs, hcs, rfl, rfl, rfl⟩
  · rw [hrun] at h
    cases h

/-- A row of chains up to the last operand that is combined, and the items after it. -/
theorem exists_last_operand (cs : List (Chain k)) :
    ∃ done bare, cs = done ++ bare ∧ (∀ c ∈ bare, c.links = []) ∧
      (done.flatMap Chain.items = [] ∨ ∃ before sign right,
        done.flatMap Chain.items = before ++ [sign, right] ∧ sign.hasKind k = true) := by
  refine ⟨cs.rdropWhile (·.links.isEmpty), cs.rtakeWhile (·.links.isEmpty),
    List.rdropWhile_append_rtakeWhile.symm, fun c hc => ?_, ?_⟩
  · simpa using List.mem_rtakeWhile_imp hc
  · rcases List.eq_nil_or_concat (cs.rdropWhile (·.links.isEmpty)) with hnil | ⟨done, c, hdone⟩
    · exact Or.inl (by rw [hnil, List.flatMap_nil])
    · have hlinks : c.links ≠ [] := by
        have hlast := List.rdropWhile_last_not (·.links.isEmpty) cs (by simp [hdone])
        simpa [hdone] using hlast
      rcases c.items_cases with ⟨hnil, -⟩ | ⟨l, hl, front, hitems⟩
      · exact absurd hnil hlinks
      · refine Or.inr ⟨done.flatMap Chain.items ++ front, l.1, l.2, ?_, c.sign l hl⟩
        simp [hdone, hitems]

/-- What a sweep that fails has gone through, and where it stopped. -/
theorem exists_chains_of_sweep_fault {f g : Fragment} {s s' : Session} {fault : Fault}
    (h : f.sweep k op.mnemonic s = (⟨g, some fault⟩, s')) :
    ∃ (cs : List (Chain k)) (passed : Fragment) (x : Item) (after : Fragment) (loads : List Instr),
      (∀ c ∈ cs, c.Resolves s.scope.sourceNames) ∧
      f = cs.flatMap Chain.items ++ passed ++ x :: after ∧
      g = (collapse op s.nextTemp cs).2 ++ passed ++ x :: after ∧
      s' = (s.emitted (collapse op s.nextTemp cs).1).emitted loads ∧
      (cs.flatMap Chain.items = [] ∨ ∃ before sign right,
        cs.flatMap Chain.items = before ++ [sign, right] ∧ sign.hasKind k = true) ∧
      (∀ y ∈ passed, y.hasKind k = false) ∧ x.hasKind k = true ∧
      flaw? s x.text (cs.flatMap Chain.items ++ passed).getLast? after.head? = some fault ∧
      MayLoad (s.nextTemp + (collapse op s.nextTemp cs).1.length) loads := by
  obtain ⟨cs, hcs, rfl | ⟨x, after, fault', loads, rfl, hx, hflaw, hrun, hloads⟩⟩ :=
    sweep_cases k op f s
  · rw [sweep_chains hcs] at h
    cases h
  rw [hrun] at h
  cases h
  -- the items behind the last operand that was used are chains of their own
  obtain ⟨done, bare, rfl, hbare, hdone⟩ := exists_last_operand cs
  have hcollapse : collapse op s.nextTemp (done ++ bare) =
      ((collapse op s.nextTemp done).1,
        (collapse op s.nextTemp done).2 ++ bare.flatMap Chain.items) := by
    rw [collapse_append, collapse_of_links_eq_nil _ _ hbare, List.append_nil]
  rw [hcollapse] at hloads ⊢
  refine ⟨done, bare.flatMap Chain.items, x, after, loads, fun c hc => hcs c (by simp [hc]),
    by rw [List.flatMap_append], rfl, rfl, hdone, ?_, hx, by rw [← List.flatMap_append, hflaw],
    hloads⟩
  intro y hy
  obtain ⟨c, hc, hyc⟩ := List.mem_flatMap.mp hy
  obtain rfl : y = c.first := by simpa [Chain.items, hbare c hc] using hyc
  exact c.not_sign

end Sweeps

/-- **What one sweep does.** Cut the fragment wherever two items stand side by side of which neither
is the sign. The sweep succeeds exactly when every part is an item other than the sign, or a chain
of operands with values. Then each item is kept, and each chain is replaced by a new temporary. Two
items are gone for every sign, and the instructions are those of the chains from left to right,
where the operations of a chain are nested to the left and each variable is loaded right before its
operation.

Otherwise the sweep stops at a sign with a flaw. What stands before, up to the last operand that was
used, has been swept as a whole, with one operation for each sign in it. The rest is unchanged, and
one load at most has been emitted for the sign at fault.

All this holds as well of the loop that searches the whole fragment again after each replacement,
since it is the sweep. -/
theorem sweep_collapses_chains (f : Fragment) (k : Kind) (op : BinOp) (s : Session)
    (hk : k.isOperator = true) :
    f.rescan k op.mnemonic s = f.sweep k op.mnemonic s ∧
    ((∃ g s', f.sweep k op.mnemonic s = (⟨g, none⟩, s')) ↔
      ∃ cs : List (Chain k), f.splitBy (touching k) = cs.map Chain.items ∧
        ∀ c ∈ cs, c.Resolves s.scope.sourceNames) ∧
    (∀ g s', f.sweep k op.mnemonic s = (⟨g, none⟩, s') →
      ∃ cs : List (Chain k), f.splitBy (touching k) = cs.map Chain.items ∧
        g = (collapse op s.nextTemp cs).2 ∧ s' = s.emitted (collapse op s.nextTemp cs).1 ∧
        List.Forall₂ (fun c y => (c.links = [] → y = c.first) ∧ (c.links ≠ [] →
          ∃ t, y = .temp t ∧ s.nextTemp ≤ t.id ∧ t.id < s'.nextTemp)) cs g ∧
        g.length + 2 * f.countP (·.hasKind k) = f.length ∧
        ∃ new, s'.log = s.log ++ new ∧
          (operations new).map (·.1) = List.replicate (f.countP (·.hasKind k)) op) ∧
    ∀ g fault s', f.sweep k op.mnemonic s = (⟨g, some fault⟩, s') →
      ∃ (front passed : Fragment) (x : Item) (after held : Fragment) (s₁ : Session)
        (loads : List Instr),
        f = front ++ passed ++ x :: after ∧ g = held ++ passed ++ x :: after ∧
        front.sweep k op.mnemonic s = (⟨held, none⟩, s₁) ∧
        (front = [] ∨ ∃ before sign right, front = before ++ [sign, right] ∧
          sign.hasKind k = true) ∧
        (∀ y ∈ passed, y.hasKind k = false) ∧ x.hasKind k = true ∧
        flaw? s x.text (front ++ passed).getLast? after.head? = some fault ∧
        s' = s₁.emitted loads ∧ MayLoad s₁.nextTemp loads ∧
        ∃ new, s'.log = s.log ++ new ∧
          (operations new).length = front.countP (·.hasKind k) := by
  refine ⟨rescan_eq_sweep f k op.mnemonic s, ⟨?_, ?_⟩, ?_, ?_⟩
  · rintro ⟨g, s', h⟩
    obtain ⟨cs, hcs, rfl, -⟩ := exists_chains_of_sweep h
    exact ⟨cs, splitBy_chains hk cs, hcs⟩
  · rintro ⟨cs, hsplit, hcs⟩
    have hf : f = cs.flatMap Chain.items := by
      rw [← List.flatten_splitBy (touching k) f, hsplit, List.flatMap_def]
    rw [hf]
    exact ⟨_, _, sweep_chains hcs⟩
  · intro g s' h
    obtain ⟨cs, hcs, rfl, rfl, rfl⟩ := exists_chains_of_sweep h
    refine ⟨cs, splitBy_chains hk cs, rfl, rfl, forall₂_collapse op s.nextTemp cs,
      length_collapse hk op s.nextTemp cs, _, rfl, ?_⟩
    rw [operations_map_entry, operations_collapse hk]
  · intro g fault s' h
    obtain ⟨cs, passed, x, after, loads, hcs, rfl, rfl, rfl, hend, hpassed, hx, hflaw, hloads⟩ :=
      exists_chains_of_sweep_fault h
    refine ⟨cs.flatMap Chain.items, passed, x, after, _, _, loads, rfl, rfl, sweep_chains hcs, hend,
      hpassed, hx, hflaw, rfl, hloads,
      ((collapse op s.nextTemp cs).1 ++ loads).map (⟨s.line, ·⟩), by simp, ?_⟩
    have hcount := congrArg List.length (operations_collapse hk op s.nextTemp cs)
    rw [operations_map_entry, List.filterMap_append, hloads.operations_eq, List.append_nil]
    simpa using hcount

/-- Two chains with another sign and a parenthesis between them, where the signs of products stand
for differences. In the second fragment an undefined variable stops the sweep at the second sign,
when the variable on its left has been loaded. -/
theorem sweep_collapses_chains_partly :
    let n : String → Item := fun text => .token ⟨.operand, text⟩
    let c : Char → Item := fun sign => .token (.ofSign sign)
    let s : Session := { scope := ⟨["a", "b"], by decide⟩ }
    let f : Fragment :=
      [n "a", c '*', n "b", c '*', n "3", c '-', c '(', .temp ⟨7⟩, c '*', n "a"]
    let h : Fragment := [n "a", c '*', n "b", n "1", n "b", c '*', n "u"]
    let g : Fragment := [.temp ⟨3⟩, n "1", n "b", c '*', n "u"]
    let fault : Fault := .rejected ⟨0, .undefinedVariable "u"⟩
    Kind.star.isOperator = true ∧
    (∃ s', f.sweep .star BinOp.sub.mnemonic s =
      (⟨[.temp ⟨4⟩, c '-', c '(', .temp ⟨6⟩], none⟩, s')) ∧
    (∃ cs : List (Chain .star), f.splitBy (touching .star) = cs.map Chain.items ∧
      ∀ c ∈ cs, c.Resolves s.scope.sourceNames) ∧
    ∃ s', h.sweep .star BinOp.sub.mnemonic s = (⟨g, some fault⟩, s') ∧
      ∃ (front passed : Fragment) (x : Item) (after held : Fragment),
        h = front ++ passed ++ x :: after ∧ g = held ++ passed ++ x :: after ∧
        flaw? s x.text (front ++ passed).getLast? after.head? = some fault ∧
        ∃ new, s'.log = s.log ++ new ∧
          (operations new).length = front.countP (·.hasKind .star) := by
  intro n c s f h g fault
  have hf : f.sweep .star BinOp.sub.mnemonic s =
      (⟨[.temp ⟨4⟩, c '-', c '(', .temp ⟨6⟩], none⟩, _) := rfl
  have hh : h.sweep .star BinOp.sub.mnemonic s = (⟨g, some fault⟩, _) := rfl
  obtain ⟨-, hsuccess, -, -⟩ := sweep_collapses_chains f .star .sub s rfl
  obtain ⟨-, -, -, hfailure⟩ := sweep_collapses_chains h .star .sub s rfl
  obtain ⟨front, passed, x, after, held, -, -, heq, hleft, -, -, -, -, hflaw, -, -, hnew⟩ :=
    hfailure _ _ _ hh
  exact ⟨rfl, ⟨_, hf⟩, hsuccess.mp ⟨_, _, hf⟩, _, hh, front, passed, x, after, held, heq, hleft,
    hflaw, hnew⟩

end Fragment

end Abacus
