import RecordGrammar.Proofs.Grammar.KeyRule
import RecordGrammar.Proofs.Grammar.TwoRuns

/-!
# Strict and lenient settings

A policy of the settings turns a warning into an error and does nothing else. `compileShape_tracks`: a run under any settings and
the one under the settings without policies (`GrammarSettings.lenient`) come to the same, notices included, or the first
one ends in the error of a policy and the other one goes on with the warning in its place. `grammar_tracks` says so of whole
grammars.
-/

namespace RecordGrammar
open Compiling

/-- The settings that mend what they can, with a warning. -/
def GrammarSettings.lenient (settings : GrammarSettings) : GrammarSettings :=
  { settings with strictFormats := false, clampArrayBounds := true }

/-- The warning that takes the place of an error where its policy is off. -/
def GrammarError.warning? : GrammarError → Option Notice
  | .unknownFormat format => some (.unknownFormat (Text.quoted format))
  | .reversedItems path min max => some (.itemsClamped path min max)
  | .duplicateRule _ | .unknownKind _ => none

/-- A warning is made only where its policy is off. -/
def GrammarSettings.Allows (settings : GrammarSettings) : Notice → Prop
  | .unknownFormat _ => settings.strictFormats = false
  | .itemsClamped _ _ _ => settings.clampArrayBounds = true
  | _ => True

variable {settings : GrammarSettings}

/-! ### Notices of a run -/

namespace Compiling
variable {α β : Type} {P : Notice → Prop} {x : Compiling α} {f : α → Compiling β}

/-- The step keeps the notices and makes only ones of a kind. -/
def Notes (P : Notice → Prop) (x : Compiling α) : Prop :=
  ∀ p, ∃ ns, (x.exec p).2.notices = p.notices ++ ns ∧ ∀ n ∈ ns, P n

namespace Notes

theorem none (h : ∀ p, (x.exec p).2.notices = p.notices) : Notes P x :=
  fun p => ⟨[], (h p).trans (List.append_nil _).symm, fun _ hn => absurd hn List.not_mem_nil⟩

theorem pure (a : α) : Notes P (pure a : Compiling α) := none fun _ => rfl

theorem throw (e : GrammarError) : Notes P (throw e : Compiling α) := none fun _ => rfl

theorem get : Notes P (get : Compiling Progress) := none fun _ => rfl

theorem hasRule (name : String) : Notes P (hasRule name) := none fun _ => rfl

theorem note {ns : List Notice} (h : ∀ n ∈ ns, P n) : Notes P (note ns) := fun _ => ⟨ns, rfl, h⟩

theorem addRule (name : String) (body : Expr) : Notes P (addRule name body) := none fun p => by
  rw [exec_addRule]
  split <;> rfl

theorem bind (hx : Notes P x) (hf : ∀ a, Notes P (f a)) : Notes P (x >>= f) := by
  intro p
  obtain ⟨ns, hns, hP⟩ := hx p
  rw [exec_bind]
  match hr : x.exec p with
  | (.error e, q) =>
    rw [hr] at hns
    exact ⟨ns, hns, hP⟩
  | (.ok a, q) =>
    rw [hr] at hns
    obtain ⟨more, hmore, hP'⟩ := hf a q
    refine ⟨ns ++ more, ?_, fun n hn => (List.mem_append.mp hn).elim (hP n) (hP' n)⟩
    change ((f a).exec q).2.notices = _
    rw [hmore, hns, List.append_assoc]

theorem ensureRule {name : String} (h : P (.registeringRule name)) (body : Expr) : Notes P (ensureRule name body) := by
  refine (hasRule name).bind fun held => ?_
  split
  · exact pure _
  · refine ((note ?_).bind fun _ => addRule name body).bind fun _ => pure _
    simpa using h

theorem any (h : Notes P x) : Notes (fun _ => True) x := fun p =>
  let ⟨ns, hns, _⟩ := h p
  ⟨ns, hns, fun _ _ => trivial⟩

/-- The notices at the end begin with those at the start. -/
theorem extends_notices (h : Notes P x) (p : Progress) : p.notices <+: (x.exec p).2.notices := by
  obtain ⟨ns, hns, -⟩ := h p
  exact ⟨ns, hns.symm⟩

end Notes

end Compiling

/-! ### Two runs -/

/-- How the run under settings with policies ends beside the one without: they come to the same and not to the error of a policy,
or the first one has ended in such an error and the second one has made the warning at that point. -/
inductive Follows {α : Type} : Except GrammarError α × Progress → Except GrammarError α × Progress → Prop
  | same {r : Except GrammarError α × Progress} (h : ∀ e, r.1 = .error e → e.warning? = none) : Follows r r
  | warned {e : GrammarError} {n : Notice} {p : Progress} {r : Except GrammarError α × Progress} (h : e.warning? = some n)
    (hnotices : p.notices ++ [n] <+: r.2.notices) : Follows (.error e, p) r

/-- The first step is under settings with policies what the second one is without. -/
structure Tracks {α : Type} (settings : GrammarSettings) (x y : Compiling α) : Prop where
  follows : ∀ p, Follows (x.exec p) (y.exec p)
  allowed : Notes settings.Allows x
  notes : Notes (fun _ => True) y

namespace Tracks
variable {α β : Type} {x y : Compiling α} {f g : α → Compiling β}

/-- A step that asks for no policy. -/
theorem refl (h : ∀ p e, (x.exec p).1 = .error e → e.warning? = none) (hnotes : Notes settings.Allows x) :
    Tracks settings x x where
  follows p := .same (h p)
  allowed := hnotes
  notes := hnotes.any

theorem pure (a : α) : Tracks settings (pure a) (pure a) := refl (fun _ _ h => by cases h) (.pure a)

theorem get : Tracks settings (get : Compiling Progress) get := refl (fun _ _ h => by cases h) .get

theorem hasRule (name : String) : Tracks settings (hasRule name) (hasRule name) :=
  refl (fun _ _ h => by cases h) (.hasRule name)

theorem note {ns : List Notice} (h : ∀ n ∈ ns, settings.Allows n) : Tracks settings (note ns) (note ns) :=
  refl (fun _ _ h => by cases h) (.note h)

theorem addRule (name : String) (body : Expr) : Tracks settings (addRule name body) (addRule name body) := by
  refine refl (fun p e h => ?_) (.addRule name body)
  rw [exec_addRule] at h
  split at h
  · cases h
    rfl
  · cases h

theorem ensureRule (name : String) (body : Expr) : Tracks settings (ensureRule name body) (ensureRule name body) := by
  refine refl (fun p e h => ?_) (.ensureRule trivial body)
  obtain ⟨ns, hexec⟩ := exec_ensureRule name body p
  rw [hexec] at h
  cases h

/-- An error that a policy makes of a warning. -/
theorem throw {e : GrammarError} {n : Notice} (h : e.warning? = some n) {y : Compiling α} (hy : Notes (fun _ => True) y) :
    Tracks settings (throw e) (do Compiling.note [n]; y) where
  follows p := .warned h (hy.extends_notices { p with notices := p.notices ++ [n] })
  allowed := .throw e
  notes := (Notes.note fun _ _ => trivial).bind fun _ => hy

theorem bind (hx : Tracks settings x y) (hf : ∀ a, Tracks settings (f a) (g a)) : Tracks settings (x >>= f) (y >>= g) where
  follows p := by
    rw [exec_bind, exec_bind]
    have hfollows := hx.follows p
    generalize x.exec p = r at hfollows
    generalize y.exec p = r' at hfollows
    cases hfollows with
    | same h =>
      obtain ⟨e | a, q⟩ := r
      · refine Follows.same fun e' he => h e' ?_
        cases he
        rfl
      · exact (hf a).follows q
    | warned h hnotices =>
      obtain ⟨_ | a, q⟩ := r'
      · exact .warned h hnotices
      · exact .warned h (hnotices.trans ((hf a).notes.extends_notices q))
  allowed := hx.allowed.bind fun a => (hf a).allowed
  notes := hx.notes.bind fun a => (hf a).notes

end Tracks

/-! ### The compiler -/

/-- A format that means nothing is the only one that the settings matter for. -/
theorem StringFormat.compile_lenient (settings : GrammarSettings) (f : StringFormat) :
    (∃ body ns, f.compile settings = .ok (body, ns) ∧ f.compile settings.lenient = .ok (body, ns) ∧ ∀ n ∈ ns, settings.Allows n) ∨
    ∃ e n body, f.compile settings = .error e ∧ e.warning? = some n ∧ f.compile settings.lenient = .ok (body, [n]) := by
  cases f with
  | raw fragment => exact .inl ⟨_, [], rfl, rfl, by simp⟩
  | named f => exact .inl ⟨_, [], rfl, rfl, by simp⟩
  | pattern s => exact .inl ⟨_, [], rfl, rfl, by simp⟩
  | unknown s =>
    by_cases hstrict : settings.strictFormats = true
    · exact .inr ⟨.unknownFormat s, _, _, by rw [compile, if_pos hstrict], rfl, rfl⟩
    · refine .inl ⟨_, [.unknownFormat (Text.quoted s)], ?_, rfl, ?_⟩
      · rw [compile, if_neg hstrict]
        rfl
      · simpa [GrammarSettings.Allows] using hstrict

theorem compileString_tracks (text : StringShape) (path : String) :
    Tracks settings (compileString settings text path) (compileString settings.lenient text path) := by
  rcases text.cases with hv | hplain | ⟨f, hf⟩
  · rw [StringShape.compileString_values hv, StringShape.compileString_values hv]
    exact .ensureRule path _
  · rw [StringShape.compileString_plain hplain rfl, StringShape.compileString_plain hplain rfl]
    -- reversed bounds of a string are mended under all settings
    refine Relates.ite (R := fun _ => Tracks settings) ((Tracks.note ?_).bind fun _ => .pure _) (.pure _)
    simp [GrammarSettings.Allows]
  · rw [StringShape.compileString_format hf, StringShape.compileString_format hf]
    rcases f.compile_lenient settings with ⟨body, ns, hc, hc', hallowed⟩ | ⟨e, n, body, hc, hn, hc'⟩
    · rw [hc, hc']
      exact (Tracks.note hallowed).bind fun _ => .ensureRule path body
    · rw [hc, hc']
      exact .throw hn (Notes.ensureRule trivial body)

theorem arrayLimits_tracks (lo hi : Option Nat) (path : String) :
    Tracks settings (arrayLimits settings lo hi path) (arrayLimits settings.lenient lo hi path) := by
  rw [arrayLimits, arrayLimits]
  by_cases hrev : (effectiveLimits lo hi settings.items).2 < (effectiveLimits lo hi settings.items).1
  · by_cases hclamp : settings.clampArrayBounds = true
    · simp only [GrammarSettings.lenient, hrev, hclamp, Bool.not_true, Bool.false_eq_true, ↓reduceIte]
      refine (Tracks.note ?_).bind fun _ => .pure _
      simpa [GrammarSettings.Allows] using hclamp
    · simp only [GrammarSettings.lenient, hrev, hclamp, Bool.not_false, Bool.not_true, Bool.false_eq_true, ↓reduceIte]
      exact .throw rfl (.pure _)
  · simp only [GrammarSettings.lenient, hrev, ↓reduceIte]
    exact .pure _

theorem tracks_relates : Relates (fun _ => Tracks settings) (fun _ => True) settings settings.lenient where
  item _ := trivial
  key _ := trivial
  field _ _ _ _ := trivial
  pure := .pure
  unknownKind _ := .refl (fun _ _ h => by cases h; rfl) (.throw _)
  bind := .bind
  hasRule _ := .hasRule _
  addRule _ := .addRule _
  ensureRule _ := .ensureRule _
  string _ text := compileString_tracks text _
  limits := arrayLimits_tracks
  atField _ _ _ _ _ hf := Tracks.get.bind fun _ => hf _ trivial

/-- A run under settings with policies beside one under the settings without. -/
theorem compileShape_tracks (s : Shape) (path : String) :
    Tracks settings (compileShape settings s path) (compileShape settings.lenient s path) :=
  tracks_relates.compileShape s trivial

/-! ### Whole grammars -/

theorem Tracks.addRules : ∀ rules : List Rule, Tracks settings (addRules rules) (addRules rules)
  | [] => by
    rw [RecordGrammar.addRules]
    exact .pure ()
  | (name, body) :: rest => by
    rw [RecordGrammar.addRules]
    exact (Tracks.addRule name body).bind fun _ => addRules rest

theorem compileGrammar_tracks (shape : Shape) :
    Tracks settings (compileGrammar settings shape) (compileGrammar settings.lenient shape) := by
  let last : Compiling Unit := do note [.grammarCompiled (← get).table.size settings.entryRule]
  have hlast : Tracks settings last last := by
    refine Tracks.get.bind fun p => .note ?_
    simp [GrammarSettings.Allows]
  let entry : Compiling Unit := do
    if settings.includeThinking then
      addRule "thinking-root" (thinkingEntry settings.thinkingStart settings.thinkingEnd.text)
    last
  have hentry : Tracks settings entry entry :=
    Relates.ite (R := fun _ => Tracks settings) ((Tracks.addRule _ _).bind fun _ => hlast) hlast
  have hroot : Tracks settings (do
      let root ← compileShape settings shape "root"
      if root ≠ .rule "root" then addRule "root" root
      entry) (do
      let root ← compileShape settings.lenient shape "root"
      if root ≠ .rule "root" then addRule "root" root
      entry) := by
    refine (compileShape_tracks shape "root").bind fun root => ?_
    exact Relates.ite (R := fun _ => Tracks settings) ((Tracks.addRule _ _).bind fun _ => hentry) hentry
  rw [compileGrammar, compileGrammar]
  refine (Tracks.addRules _).bind fun _ => ?_
  exact Relates.ite (R := fun _ => Tracks settings) ((Tracks.addRules _).bind fun _ => hroot) hroot

/-- A policy only turns a warning into an error: a grammar that is made under it is made without it, with the same notices and none
of its warnings; and where its error ends the run, the run without policies goes on with the warning and comes to no such
error. -/
theorem grammar_tracks (settings : GrammarSettings) (shape : Shape) :
    match (shape.grammar settings).1 with
    | .ok _ => shape.grammar settings.lenient = shape.grammar settings ∧ ∀ n ∈ (shape.grammar settings).2, settings.Allows n
    | .error e => (e.warning? = none → shape.grammar settings.lenient = shape.grammar settings) ∧
      ∀ n, e.warning? = some n → (shape.grammar settings).2 ++ [n] <+: (shape.grammar settings.lenient).2 ∧
        ∀ e', (shape.grammar settings.lenient).1 = .error e' → e'.warning? = none := by
  have htracks : Tracks settings _ _ := compileGrammar_tracks shape
  have hmended : ∀ e', (shape.grammar settings.lenient).1 = .error e' → e'.warning? = none := by
    intro e' he
    rcases grammar_cases shape settings.lenient with ⟨_, _, -, hres⟩ | ⟨e, hfails, hres⟩
    · rw [hres] at he
      cases he
    · rw [hres] at he
      cases he
      have hpolicy := hfails.policy
      cases e' with
      | duplicateRule | unknownKind => rfl
      | unknownFormat => cases hpolicy
      | reversedItems => cases hpolicy.2
  have hallowed : ∀ n ∈ ((compileGrammar settings shape).exec {}).2.notices, settings.Allows n := by
    obtain ⟨ns, hns, hallowed⟩ := htracks.allowed {}
    rw [hns]
    simpa using hallowed
  have hfollows := htracks.follows {}
  simp only [grammar_eq] at hmended ⊢
  generalize (compileGrammar settings shape).exec {} = r at hfollows hallowed ⊢
  generalize (compileGrammar settings.lenient shape).exec {} = r' at hfollows hmended ⊢
  cases hfollows with
  | same h =>
    obtain ⟨e | a, q⟩ := r
    · refine ⟨fun _ => rfl, fun n hn => ?_⟩
      rw [h e rfl] at hn
      cases hn
    · exact ⟨rfl, hallowed⟩
  | warned h hnotices =>
    refine ⟨fun hnone => ?_, fun n' hn' => ?_⟩
    · rw [h] at hnone
      cases hnone
    · rw [h] at hn'
      cases hn'
      exact ⟨hnotices, hmended⟩

/-- A format that means nothing is refused under the policy, and warned of without it. -/
example : ((Shape.string { format := some "colour" }).grammar { strictFormats := true }).1 = .error (.unknownFormat "colour") ∧
    (.unknownFormat "'colour'") ∈ ((Shape.string { format := some "colour" }).grammar {}).2 := by
  decide +kernel

end RecordGrammar
