import Abacus.Proofs.Sweep

/-!
# Sweeping by position

An operator can also be eliminated by a loop that searches the whole fragment again after each
replacement: it takes the first token of the kind, combines the items right before and right after
it, and puts the result in the place of the three. The loop is stated here with the searches by
position, and it is the sweep: on every fragment it leaves the same items, stops at the same fault
and leaves the same session.

## Main definitions

* `Fragment.replaceAt`: one replacement, by position
* `Fragment.rescan`: the loop

## Main results

* `Fragment.lastIndex_append`, `Fragment.searchFrom_append`, `Fragment.searchFrom_eq_absent`: what
  the searches find
* `Fragment.exists_last`, `Fragment.exists_first`: a fragment is cut at an item
* `Fragment.rescan_eq_sweep`: the loop is the sweep
-/

namespace Abacus.Fragment

/-! ## Searching by position -/

section Search

variable {p : Item → Bool} {f g : Fragment} {x : Item}

theorem lastIndex_eq_none (h : ∀ y ∈ f, p y = false) : f.lastIndex p = none := by
  simpa [lastIndex] using h

/-- The last item that `p` holds of stands after everything in front of it. -/
theorem lastIndex_append (hx : p x = true) (hg : ∀ y ∈ g, p y = false) :
    (f ++ x :: g).lastIndex p = some f.length := by
  have hfind : g.reverse.findIdx? p = none := by simpa using hg
  simp [lastIndex, hfind, List.findIdx?_cons, hx]

theorem at?_natCast (f : Fragment) (n : Nat) : f.at? n = f[n]? := by
  simp [at?]

/-- A search from a position that is not negative, by positions relative to it. -/
theorem searchFrom_natCast {n : Nat} :
    f.searchFrom p n =
      match (List.range (f.length - n)).find? fun i => f[n + i]?.any p with
      | some i => .found ((n + i : Nat) : Int)
      | none => .absent := by
  have hstart : ¬ ((n : Int) < -f.length) := by omega
  have hlen : ((f.length : Int) - n).toNat = f.length - n := by omega
  have hpos : (fun i : Int => (f.at? i).any p) ∘ (fun i : Nat => (n : Int) + Int.ofNat i) =
      fun i : Nat => f[n + i]?.any p := by
    funext i
    exact congrArg (·.any p) (at?_natCast f (n + i))
  simp only [searchFrom, if_neg hstart, hlen, List.find?_map, hpos]
  cases (List.range (f.length - n)).find? fun i => f[n + i]?.any p <;> rfl

/-- A search finds the first item that `p` holds of. -/
theorem searchFrom_append {h : Fragment} (hg : ∀ y ∈ g, p y = false) (hx : p x = true) :
    (f ++ (g ++ x :: h)).searchFrom p f.length = .found ((f.length + g.length : Nat) : Int) := by
  rw [searchFrom_natCast]
  have hfind : (List.range ((f ++ (g ++ x :: h)).length - f.length)).find?
      (fun i => (f ++ (g ++ x :: h))[f.length + i]?.any p) = some g.length := by
    rw [List.find?_range_eq_some]
    refine ⟨by simp [hx], by simp, fun j hj => ?_⟩
    have hj' : (f ++ (g ++ x :: h))[f.length + j]? = some g[j] := by
      rw [List.getElem?_append_right (Nat.le_add_right ..), Nat.add_sub_cancel_left,
        List.getElem?_append_left hj, List.getElem?_eq_getElem hj]
    simp [hj', hg g[j] (List.getElem_mem hj)]
  rw [hfind]

theorem searchFrom_eq_absent (hg : ∀ y ∈ g, p y = false) :
    (f ++ g).searchFrom p f.length = .absent := by
  rw [searchFrom_natCast]
  have hfind : (List.range ((f ++ g).length - f.length)).find?
      (fun i => (f ++ g)[f.length + i]?.any p) = none := by
    rw [List.find?_range_eq_none]
    intro i hi
    simp only [List.length_append, Nat.add_sub_cancel_left] at hi
    simp [hi, hg g[i] (List.getElem_mem hi)]
  rw [hfind]

/-- A fragment is cut at the last item that `p` holds of. -/
theorem exists_last (h : ∃ y ∈ f, p y = true) :
    ∃ front x back, f = front ++ x :: back ∧ p x = true ∧ ∀ y ∈ back, p y = false := by
  induction f with
  | nil => simp at h
  | cons y f ih =>
    by_cases hf : ∃ z ∈ f, p z = true
    · obtain ⟨front, x, back, rfl, hx, hback⟩ := ih hf
      exact ⟨y :: front, x, back, rfl, hx, hback⟩
    · have hy : p y = true := by simpa [hf] using h
      refine ⟨[], y, f, rfl, hy, fun z hz => ?_⟩
      exact Bool.eq_false_iff.mpr fun hz' => hf ⟨z, hz, hz'⟩

/-- A fragment is cut at the first item that `p` holds of. -/
theorem exists_first (h : ∃ y ∈ f, p y = true) :
    ∃ front x back, f = front ++ x :: back ∧ p x = true ∧ ∀ y ∈ front, p y = false := by
  have hreverse : ∃ y ∈ f.reverse, p y = true := by simpa using h
  obtain ⟨back, x, front, hf, hx, hfront⟩ := exists_last hreverse
  refine ⟨front.reverse, x, back.reverse, ?_, hx, by simpa using hfront⟩
  rw [← List.reverse_reverse f, hf]
  simp

end Search

/-! ## One replacement -/

/-- **One replacement**: the operator at a position and the items right before and right after it
become the temporary that holds the result. -/
def replaceAt (f : Fragment) (mnemonic : String) (i : Int) : Lowering Fragment :=
  match f.item? (i - 1), f.item? i, f.item? (i + 1) with
  | some left, some x, some right => do
    let t ← combine x.text mnemonic left right
    return f.take (i - 1).toNat ++ .temp t :: f.drop (i + 2).toNat
  | _, x?, _ => Session.reject (.missingOperand (x?.map Item.text))

section Replace

variable {mnemonic : String} {f front back : Fragment} {left x right : Item}

theorem item?_eq_getElem? {i : Int} {n : Nat} (h : i = n) : f.item? i = f[n]? := by
  rw [h, item?, if_neg (by omega), Int.toNat_natCast]

/-- There is an item at the positions within the fragment only. -/
theorem bounds_of_item? {i : Int} (h : f.item? i = some x) : 0 ≤ i ∧ i < f.length := by
  rw [item?] at h
  split at h
  · cases h
  · obtain ⟨hlt, -⟩ := List.getElem?_eq_some_iff.mp h
    omega

/-- An operator between two items is combined with them. -/
theorem replaceAt_between :
    replaceAt (front ++ left :: x :: right :: back) mnemonic (front.length + 1 : Nat) = (do
      let t ← combine x.text mnemonic left right
      return front ++ .temp t :: back) := by
  have hleft : item? (front ++ left :: x :: right :: back) ((front.length + 1 : Nat) - 1) =
      some left := by
    rw [item?_eq_getElem? (n := front.length) (by omega)]
    simp
  have hx : item? (front ++ left :: x :: right :: back) (front.length + 1 : Nat) = some x := by
    rw [item?_eq_getElem? rfl]
    simp
  have hright : item? (front ++ left :: x :: right :: back) ((front.length + 1 : Nat) + 1) =
      some right := by
    rw [item?_eq_getElem? (n := front.length + 2) (by omega)]
    simp
  have hbefore : (((front.length + 1 : Nat) : Int) - 1).toNat = front.length := by omega
  have hbehind : (((front.length + 1 : Nat) : Int) + 2).toNat = front.length + 3 := by omega
  simp only [replaceAt, hleft, hx, hright, hbefore, hbehind]
  simp

/-- An operator at the edge lacks a neighbour. -/
theorem replaceAt_edge (h : front = [] ∨ back = []) :
    replaceAt (front ++ x :: back) mnemonic front.length =
      Session.reject (.missingOperand x.text) := by
  have hx : item? (front ++ x :: back) front.length = some x := by
    rw [item?_eq_getElem? rfl]
    simp
  rcases h with rfl | rfl
  · have hleft : item? ([] ++ x :: back) (([] : Fragment).length - 1) = none := rfl
    simp only [replaceAt, hleft, hx]
    rfl
  · have hright : item? (front ++ [x]) (front.length + 1) = none := by
      rw [item?_eq_getElem? (n := front.length + 1) (by omega)]
      simp
    rw [replaceAt, hx, hright]
    cases item? (front ++ [x]) (front.length - 1) <;> rfl

/-- Three items become one. -/
theorem length_of_replaceAt {f' : Fragment} {i : Int} {s s' : Session}
    (h : f.replaceAt mnemonic i s = .ok f' s') : f'.length + 2 = f.length := by
  unfold replaceAt at h
  cases hleft : f.item? (i - 1) with
  | none => simp [hleft] at h
  | some left =>
    cases hright : f.item? (i + 1) with
    | none => simp [hleft, hright] at h
    | some right =>
      have hlow := (bounds_of_item? hleft).1
      have hhigh := (bounds_of_item? hright).2
      cases hx : f.item? i with
      | none => simp [hleft, hx] at h
      | some x =>
        simp only [hleft, hx, hright] at h
        obtain ⟨t, s₁, -, hreturn⟩ := Lowering.bind_eq_ok_iff.mp h
        cases hreturn
        simp only [List.length_append, List.length_take, List.length_cons, List.length_drop]
        omega

end Replace

/-! ## The loop -/

/-- **The loop**: while there is a token of kind `k`, the first one is replaced along with its
neighbours. A replacement that fails leaves the fragment as it was before it. -/
def rescan (f : Fragment) (k : Kind) (mnemonic : String) (s : Session) : Swept × Session :=
  match f.searchFrom (·.hasKind k) 0 with
  | .found i =>
    match _h : f.replaceAt mnemonic i s with
    | .ok f' s' => rescan f' k mnemonic s'
    | .error fault s' => (⟨f, some fault⟩, s')
  | _ => (⟨f, none⟩, s)
termination_by f.length
decreasing_by
  have hlen := length_of_replaceAt _h
  omega

section Rescan

variable {k : Kind} {mnemonic : String} {f front back : Fragment} {left x right : Item}
  {s : Session}

/-- Without a token of the kind there is nothing to do. -/
theorem rescan_of_absent (h : ∀ y ∈ f, y.hasKind k = false) :
    f.rescan k mnemonic s = (⟨f, none⟩, s) := by
  have hsearch : f.searchFrom (·.hasKind k) 0 = .absent := searchFrom_eq_absent (f := []) h
  rw [rescan, hsearch]

/-- One round of the loop. -/
theorem rescan_of_first (hfront : ∀ y ∈ front, y.hasKind k = false) (hx : x.hasKind k = true) :
    rescan (front ++ x :: back) k mnemonic s =
      match replaceAt (front ++ x :: back) mnemonic front.length s with
      | .ok f' s' => rescan f' k mnemonic s'
      | .error fault s' => (⟨front ++ x :: back, some fault⟩, s') := by
  have hsearch : searchFrom (front ++ x :: back) (·.hasKind k) 0 = .found front.length := by
    simpa using searchFrom_append (f := []) (h := back) hfront hx
  rw [rescan, hsearch]
  dsimp only
  split
  · next h => rw [h]
  · next h => rw [h]

/-- One round of the loop, where the first token of the kind stands between two items. -/
theorem rescan_between (hfront : ∀ y ∈ front, y.hasKind k = false) (hleft : left.hasKind k = false)
    (hx : x.hasKind k = true) :
    rescan (front ++ left :: x :: right :: back) k mnemonic s =
      match combine x.text mnemonic left right s with
      | .ok t s' => rescan (front ++ .temp t :: back) k mnemonic s'
      | .error fault s' => (⟨front ++ left :: x :: right :: back, some fault⟩, s') := by
  have hbefore : ∀ y ∈ front ++ [left], y.hasKind k = false := by
    simpa [or_imp, forall_and] using ⟨hfront, hleft⟩
  have hround : rescan ((front ++ [left]) ++ x :: right :: back) k mnemonic s = _ :=
    rescan_of_first hbefore hx
  simp only [List.append_assoc, List.cons_append, List.nil_append, List.length_append,
    List.length_cons, List.length_nil, Nat.zero_add] at hround
  rw [hround, replaceAt_between]
  cases h : combine x.text mnemonic left right s with
  | ok t s' => rw [Lowering.bind_of_ok h]; rfl
  | error fault s' => rw [Lowering.bind_of_error h]

/-- The loop stops where the first token of the kind lacks a neighbour. -/
theorem rescan_edge (hfront : ∀ y ∈ front, y.hasKind k = false) (hx : x.hasKind k = true)
    (h : front = [] ∨ back = []) :
    rescan (front ++ x :: back) k mnemonic s =
      (⟨front ++ x :: back, some (.rejected ⟨s.line, .missingOperand x.text⟩)⟩, s) := by
  rw [rescan_of_first hfront hx, replaceAt_edge h, Session.reject_run]

/-- The loop is the sweep at every point that the sweep gets to: the search for the next token goes
past the items that the sweep has gone past. -/
theorem rescan_eq_sweepFrom (before rest : List Item) (s : Session)
    (hb : ∀ y ∈ before, y.hasKind k = false) :
    rescan (before.reverse ++ rest) k mnemonic s = sweepFrom k mnemonic before rest s := by
  have hpassed : ∀ {items : List Item}, (∀ y ∈ items, y.hasKind k = false) →
      ∀ y ∈ items.reverse, y.hasKind k = false :=
    fun h y hy => h y (List.mem_reverse.mp hy)
  fun_induction sweepFrom k mnemonic before rest s with
  | case1 before s =>
    rw [List.append_nil]
    exact rescan_of_absent (hpassed hb)
  | case2 x s hx left before right rest t s' hcombine ih =>
    obtain ⟨hleft, hbefore⟩ := List.forall_mem_cons.mp hb
    have hnext : ∀ y ∈ .temp t :: before, y.hasKind k = false :=
      List.forall_mem_cons.mpr ⟨Item.hasKind_temp k t, hbefore⟩
    rw [← ih hnext, List.reverse_cons, List.append_assoc, List.singleton_append,
      rescan_between (hpassed hbefore) hleft hx, hcombine, List.reverse_cons, List.append_assoc]
    rfl
  | case3 x s hx left before right rest fault s' hcombine =>
    obtain ⟨hleft, hbefore⟩ := List.forall_mem_cons.mp hb
    rw [List.reverse_cons, List.append_assoc, List.singleton_append,
      rescan_between (hpassed hbefore) hleft hx, hcombine]
  | case4 before x rest s hx hneighbours =>
    exact rescan_edge (hpassed hb) hx (edge_of_no_neighbours hneighbours)
  | case5 before x rest s hx ih =>
    rw [← ih (List.forall_mem_cons.mpr ⟨Bool.eq_false_iff.mpr hx, hb⟩), List.reverse_cons,
      List.append_assoc, List.singleton_append]

/-- **The loop is the sweep.** -/
theorem rescan_eq_sweep (f : Fragment) (k : Kind) (mnemonic : String) (s : Session) :
    f.rescan k mnemonic s = f.sweep k mnemonic s := by
  simpa [sweep] using rescan_eq_sweepFrom (k := k) [] f s (by simp)

end Rescan

end Abacus.Fragment
