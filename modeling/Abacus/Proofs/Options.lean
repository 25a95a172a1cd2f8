import Abacus.Command.Arguments

/-!
# What the arguments of a command give

The arguments are taken from left to right, with a draft of the request that is filled in on the
way. What comes out can be read off the arguments directly: the source is the only plain argument
that is no option's value, and an option has the last value that was given to it. The option to log
the instructions changes nothing else about the request.

## Main definitions

* `Arg.given`: the value that arguments give an option
* `Arg.sources`: the plain arguments that are no option's value

## Main results

* `Request.take_given`, `Request.take_sources`: what the draft holds after the arguments are taken
* `Request.parse_given`: the request of a command line, in terms of its arguments
* `Request.parse_insert_debug`, `Request.parse_cons_debug`: a command line with one more option
-/

namespace Abacus

namespace Arg

/-- The value that arguments give an option: the last one counts. -/
def given (setting : Setting) : List Arg → Option SettingValue
  | [] => none
  | .option (.setting s) (some attached) :: rest =>
    (given setting rest).or (if s = setting then some (.ofAttached attached) else none)
  | .option (.setting s) none :: .plain value :: rest =>
    (given setting rest).or (if s = setting then some (.text value) else none)
  | _ :: rest => given setting rest

/-- The plain arguments that are no option's value. -/
def sources : List Arg → List String
  | [] => []
  | .plain text :: rest => text :: sources rest
  | .option (.setting _) none :: .plain _ :: rest => sources rest
  | _ :: rest => sources rest

/-! ## Telling arguments apart -/

variable {front back args : List String}

theorem ofTexts_cons_iff {text : String} (htext : text ≠ "--") {parsed : List Arg} :
    ofTexts (text :: args) = .ok parsed ↔
      ∃ arg p, ofText text = .ok arg ∧ ofTexts args = .ok p ∧ parsed = arg :: p := by
  rw [ofTexts, if_neg htext]
  cases ofText text <;> cases ofTexts args <;>
    simp [bind, Except.bind, pure, Except.pure, eq_comm]

/-- Arguments in front of any separator are told apart without regard to the others. -/
theorem ofTexts_append_iff (hfront : "--" ∉ front) {parsed : List Arg} :
    ofTexts (front ++ back) = .ok parsed ↔
      ∃ p q, ofTexts front = .ok p ∧ ofTexts back = .ok q ∧ parsed = p ++ q := by
  induction front generalizing parsed with
  | nil => simp [ofTexts]
  | cons text front ih =>
    have htext : text ≠ "--" := fun heq => hfront (heq ▸ List.mem_cons_self)
    have hfront : "--" ∉ front := fun hmem => hfront (List.mem_cons_of_mem text hmem)
    rw [List.cons_append, ofTexts_cons_iff htext]
    constructor
    · rintro ⟨arg, rest, harg, hrest, rfl⟩
      obtain ⟨p, q, hp, hq, rfl⟩ := (ih hfront).mp hrest
      exact ⟨arg :: p, q, (ofTexts_cons_iff htext).mpr ⟨arg, p, harg, hp, rfl⟩, hq, rfl⟩
    · rintro ⟨p, q, hp, hq, rfl⟩
      obtain ⟨arg, p', harg, hp', rfl⟩ := (ofTexts_cons_iff htext).mp hp
      exact ⟨arg, p' ++ q, harg, (ih hfront).mpr ⟨p', q, hp', hq, rfl⟩, rfl⟩

theorem sources_append_separator (p q : List Arg) :
    sources (p ++ .separator :: q) = sources p ++ sources q := by
  fun_induction sources p with
  | case1 => rfl
  | case2 text rest ih => simp [sources, ih]
  | case3 s value rest ih => simpa [sources] using ih
  | case4 arg rest hplain hvalue ih =>
    rw [List.cons_append, sources, ih]
    · exact hplain
    · intro s value rest' harg hrest
      cases rest with
      | nil => cases hrest
      | cons next rest =>
        obtain ⟨rfl, -⟩ := List.cons.inj hrest
        exact hvalue s value rest harg rfl

theorem sources_map_plain (texts : List String) : sources (texts.map .plain) = texts := by
  induction texts with
  | nil => rfl
  | cons text texts ih => rw [List.map_cons, sources, ih]

/-- Behind a separator nothing is an option: every text there is a source. -/
theorem sources_of_separator {tail : List String} {parsed : List Arg} (hfront : "--" ∉ front)
    (h : ofTexts (front ++ "--" :: tail) = .ok parsed) :
    ∃ p, ofTexts front = .ok p ∧ sources parsed = sources p ++ tail := by
  obtain ⟨p, q, hp, hq, rfl⟩ := (ofTexts_append_iff hfront).mp h
  cases hq
  exact ⟨p, hp, by rw [sources_append_separator, sources_map_plain]⟩

theorem ofText_debug : ofText "--debug" = .ok (.option .debug none) := by
  rfl

end Arg

namespace Request

/-! ## Drafts -/

namespace Draft

/-- The value of an option. -/
def value? (d : Draft) : Setting → Option SettingValue
  | .out => d.out?
  | .moduleId => d.moduleId?

variable (d : Draft) (text : String) (s setting : Setting) (value : SettingValue)

@[simp] theorem value?_extra : (d.extra text).value? setting = d.value? setting := by
  cases setting <;> rfl

@[simp] theorem value?_plain : (d.plain text).value? setting = d.value? setting := by
  unfold plain
  split
  · cases setting <;> rfl
  · simp

@[simp] theorem value?_set : (d.set s value).value? setting =
    (if s = setting then some value else none).or (d.value? setting) := by
  cases s <;> cases setting <;> rfl

@[simp] theorem extras_extra : (d.extra text).extras = d.extras ++ [text] := rfl

@[simp] theorem source?_extra : (d.extra text).source? = d.source? := rfl

@[simp] theorem extras_set : (d.set s value).extras = d.extras := by
  cases s <;> rfl

@[simp] theorem source?_set : (d.set s value).source? = d.source? := by
  cases s <;> rfl

end Draft

/-! ## Taking arguments -/

variable {args : List Arg} {d d' : Draft}

/-- An option has the last value that was given to it. -/
theorem take_given (h : take args d = .ok d') (setting : Setting) :
    d'.value? setting = (Arg.given setting args).or (d.value? setting) := by
  fun_induction take args d with
  | case1 d =>
    cases h
    simp [Arg.given]
  | case2 text rest d ih =>
    rw [ih h]
    split <;> simp [Arg.given]
  | case3 text rest d _ ih => simp [ih h, Arg.given]
  | case4 rest d ih =>
    rw [ih h]
    split <;> simp [Arg.given]
  | case5 text rest d ih => simp [ih h, Arg.given]
  | case10 rest d ih =>
    rw [ih h]
    cases setting <;> simp [Arg.given, Draft.value?]
  | case12 s attached rest d ih => simp [ih h, Arg.given, Option.or_assoc]
  | case13 s value rest d ih => simp [ih h, Arg.given, Option.or_assoc]
  | _ => cases h

/-- When every argument is taken, those that are plain and no option's value are the source. -/
theorem take_sources (h : take args d = .ok d') (hd' : d'.extras = []) :
    d.extras = [] ∧ d'.source?.toList = d.source?.toList ++ Arg.sources args := by
  -- arguments that nothing takes stay in the draft: there are none before the last step either
  fun_induction take args d with
  | case1 d =>
    cases h
    simp [Arg.sources, hd']
  | case2 text rest d ih | case3 text rest d _ ih =>
    have hrest := ih h
    cases hd : d.source? <;> simp_all [Draft.plain, Arg.sources]
  | case4 rest d ih =>
    have hrest := ih h
    split at hrest <;> simp_all [Arg.sources]
  | case5 text rest d ih =>
    have hrest := ih h
    simp at hrest
  | case10 rest d ih => simpa [Arg.sources] using ih h
  | case12 s attached rest d ih => simpa [Arg.sources] using ih h
  | case13 s value rest d ih => simpa [Arg.sources] using ih h
  | _ => cases h

theorem exists_of_bind_eq_ok {ε α β : Type} {x : Except ε α} {f : α → Except ε β} {b : β}
    (h : x >>= f = .ok b) : ∃ a, x = .ok a ∧ f a = .ok b := by
  cases x with
  | error halt => cases h
  | ok a => exact ⟨a, rfl, h⟩

/-- A command line asks for something when its arguments are told apart, taken, and every one of
them has found its place. -/
theorem parse_eq_ok_iff {args : List String} {r : Request} :
    parse args = .ok r ↔ ∃ parsed d, Arg.ofTexts args = .ok parsed ∧ take parsed {} = .ok d ∧
      d.extras = [] ∧ d.source? = some r.source ∧ r = ⟨r.source, d.out?, d.moduleId?, d.debug⟩ := by
  constructor
  · intro h
    obtain ⟨parsed, hparsed, h⟩ := exists_of_bind_eq_ok h
    obtain ⟨d, htake, h⟩ := exists_of_bind_eq_ok h
    have htexts : Arg.ofTexts args = .ok parsed := by
      cases htexts : Arg.ofTexts args with
      | error e =>
        rw [htexts] at hparsed
        cases hparsed
      | ok parsed' =>
        rw [htexts] at hparsed
        cases hparsed
        rfl
    split at h
    · cases h
    · cases h
    next source hsource hextras =>
    cases h
    exact ⟨parsed, d, htexts, htake, hextras, hsource, rfl⟩
  · rintro ⟨parsed, ⟨source?, out?, moduleId?, debug, extras⟩, htexts, htake, rfl, rfl, hr⟩
    rw [hr, parse, htexts]
    show (take parsed {} >>= _) = _
    rw [htake]
    rfl

/-- **The request of a command line, in terms of its arguments.** -/
theorem parse_given {args : List String} {r : Request} (h : parse args = .ok r) :
    ∃ parsed, Arg.ofTexts args = .ok parsed ∧ Arg.sources parsed = [r.source] ∧
      Arg.given .out parsed = r.out? ∧ Arg.given .moduleId parsed = r.moduleId? := by
  obtain ⟨parsed, d, htexts, htake, hextras, hsource, hr⟩ := parse_eq_ok_iff.mp h
  have hsources := (take_sources htake hextras).2
  rw [hr]
  refine ⟨parsed, htexts, ?_, ?_, ?_⟩
  · simpa [hsource] using hsources.symm
  · simpa [Draft.value?] using (take_given htake .out).symm
  · simpa [Draft.value?] using (take_given htake .moduleId).symm

/-! ## One more option -/

/-- A draft that asks for the instructions to be logged. -/
def Draft.traced (d : Draft) : Draft :=
  { d with debug := true }

section Traced

variable {front back : List Arg} {text : String}

theorem take_plain (h : ∀ rest, back ≠ .separator :: rest) (d : Draft) :
    take (.plain text :: back) d = take back (d.plain text) := by
  rw [take]
  exact h

/-- Whether the instructions are logged makes no difference to the other arguments. -/
theorem take_traced (args : List Arg) (d : Draft) :
    take args d.traced = (take args d).map Draft.traced := by
  have hplain : ∀ (d : Draft) text, d.traced.plain text = (d.plain text).traced := by
    intro d text
    cases h : d.source? <;> simp [Draft.plain, Draft.traced, Draft.extra, h]
  fun_induction take args d with
  | case1 d => rfl
  | case2 text rest d ih =>
    rw [← ih, take, hplain]
    cases h : d.source? <;> simp [Draft.traced, Draft.extra, h]
  | case3 text rest d hrest ih =>
    rw [← ih, take_plain (fun rest' heq => hrest rest' heq), hplain]
  | case4 rest d ih =>
    rw [← ih, take]
    cases h : d.source? <;> cases hv : valueFollows rest <;> simp [Draft.traced, Draft.extra, h]
  | case5 text rest d ih => exact ih
  | case10 rest d ih => exact ih
  | case12 s attached rest d ih =>
    rw [← ih, take]
    cases s <;> rfl
  | case13 s value rest d ih =>
    rw [← ih, take]
    cases s <;> rfl
  | case9 _ _ _ hletters =>
    rw [take]
    · rfl
    · exact hletters
  | case14 _ _ _ hrest =>
    rw [take]
    · rfl
    · exact hrest
  | _ => rfl

/-- Nothing is left over only if no separator stands behind the source. -/
theorem take_plain_cons {d d' : Draft} (h : take back (d.plain text) = .ok d')
    (hd' : d'.extras = []) : take (.plain text :: back) d = .ok d' := by
  by_cases hback : ∃ rest, back = .separator :: rest
  · obtain ⟨rest, rfl⟩ := hback
    have hsource : (d.plain text).source?.isNone = false := by
      cases hd : d.source? <;> simp [Draft.plain, hd]
    rw [take, hsource] at h
    simpa using (take_sources h hd').1
  · rw [take_plain (fun rest heq => hback ⟨rest, heq⟩)]
    exact h

/-- **An option to log the instructions can be left out.** Where all arguments find their place with
the option among them, the others find the same places without it. -/
theorem take_insert_debug {d d' : Draft}
    (h : take (front ++ .option .debug none :: back) d = .ok d') (hd' : d'.extras = []) :
    ∃ d₁, take (front ++ back) d = .ok d₁ ∧ d' = d₁.traced := by
  have hdebug : ∀ {d}, take (.option .debug none :: back) d = .ok d' →
      ∃ d₁, take back d = .ok d₁ ∧ d' = d₁.traced := by
    intro d h
    have h : take back d.traced = .ok d' := h
    rw [take_traced] at h
    cases hback : take back d with
    | error e =>
      rw [hback] at h
      cases h
    | ok d₁ =>
      rw [hback] at h
      cases h
      exact ⟨d₁, rfl, rfl⟩
  -- arguments that look at the next one are the only trouble: the option may be that next one
  fun_induction take front d with
  | case1 d => exact hdebug h
  | case2 text rest d ih => exact ih h
  | case3 text rest d hrest ih =>
    cases rest with
    | nil =>
      rw [List.singleton_append, take_plain (by simp)] at h
      obtain ⟨d₁, hd₁, rfl⟩ := hdebug h
      exact ⟨d₁, take_plain_cons hd₁ hd', rfl⟩
    | cons arg rest =>
      have hplain : ∀ back, take (.plain text :: (arg :: rest ++ back)) d =
          take (arg :: rest ++ back) (d.plain text) := by
        refine fun back => take_plain ?_ d
        rintro _ ⟨rfl, -⟩
        exact hrest rest rfl
      rw [List.cons_append, hplain] at h ⊢
      exact ih h
  | case4 rest d ih =>
    cases rest with
    | nil =>
      simp only [List.singleton_append, take, valueFollows, Bool.and_false] at h
      exact absurd (take_sources h hd').1 (by simp)
    | cons arg rest => cases arg <;> exact ih h
  | case5 text rest d ih => exact ih h
  | case10 rest d ih => exact ih h
  | case12 s attached rest d ih => exact ih h
  | case13 s value rest d ih => exact ih h
  | case14 s rest d hrest =>
    cases rest with
    | nil => cases h
    | cons arg rest =>
      cases arg with
      | plain text => exact absurd rfl (hrest text rest)
      | _ => cases h
  | case9 letters rest d hletters =>
    rw [List.cons_append, take] at h
    · cases h
    · exact hletters
  | _ => cases h

end Traced

variable {front back args : List String} {r r' : Request}

/-- **The option to log the instructions does that alone, wherever it is accepted.** -/
theorem parse_insert_debug (h : parse (front ++ back) = .ok r)
    (h' : parse (front ++ "--debug" :: back) = .ok r') : r' = { r with debug := true } := by
  by_cases hfront : "--" ∈ front
  · obtain ⟨before, tail, rfl, hbefore⟩ := List.eq_append_cons_of_mem hfront
    obtain ⟨parsed, hparsed, hsources, -⟩ := parse_given h
    obtain ⟨parsed', hparsed', hsources', -⟩ := parse_given h'
    rw [List.append_assoc, List.cons_append] at hparsed hparsed'
    obtain ⟨p, hp, hcount⟩ := Arg.sources_of_separator hbefore hparsed
    obtain ⟨p', hp', hcount'⟩ := Arg.sources_of_separator hbefore hparsed'
    cases hp.symm.trans hp'
    have hlength := congrArg List.length (hcount.symm.trans hsources)
    have hlength' := congrArg List.length (hcount'.symm.trans hsources')
    simp only [List.length_append, List.length_cons, List.length_nil] at hlength hlength'
    omega
  · obtain ⟨parsed, d, hparsed, htake, hextras, hsource, hr⟩ := parse_eq_ok_iff.mp h
    obtain ⟨parsed', d', hparsed', htake', hextras', hsource', hr'⟩ := parse_eq_ok_iff.mp h'
    obtain ⟨p, q, hp, hq, rfl⟩ := (Arg.ofTexts_append_iff hfront).mp hparsed
    obtain ⟨p', rest, hp', hrest, rfl⟩ := (Arg.ofTexts_append_iff hfront).mp hparsed'
    obtain ⟨arg, q', harg, hq', rfl⟩ := (Arg.ofTexts_cons_iff (by decide)).mp hrest
    cases hp.symm.trans hp'
    cases hq.symm.trans hq'
    cases Arg.ofText_debug.symm.trans harg
    obtain ⟨d₁, hd₁, rfl⟩ := take_insert_debug htake' hextras'
    cases htake.symm.trans hd₁
    have hsame : r.source = r'.source := Option.some.inj (hsource.symm.trans hsource')
    rw [hr', hr, ← hsame]
    rfl

/-- The option to log the instructions can always come first. -/
theorem parse_cons_debug (h : parse args = .ok r) :
    parse ("--debug" :: args) = .ok { r with debug := true } := by
  obtain ⟨parsed, d, hparsed, htake, hextras, hsource, hr⟩ := parse_eq_ok_iff.mp h
  refine parse_eq_ok_iff.mpr ⟨.option .debug none :: parsed, d.traced, ?_, ?_, hextras, hsource, ?_⟩
  · exact (Arg.ofTexts_cons_iff (by decide)).mpr ⟨_, parsed, Arg.ofText_debug, hparsed, rfl⟩
  · have htraced := take_traced parsed {}
    rw [htake] at htraced
    exact htraced
  · rw [hr]
    rfl

end Request

end Abacus
