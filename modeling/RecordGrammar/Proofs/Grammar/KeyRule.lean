import RecordGrammar.Proofs.Grammar.Whole
import RecordGrammar.Proofs.Shape.Every

/-!
# When the name of a key rule is taken

The rule of a field is added once its value has been compiled, under a name that was free when the field
got its path. `TakesKeyName` is the one way in which the value can take that name: it is an object in
which a string with a rule of its own gets just that path. `grammar_outcome`: policies of the settings
and unknown kinds apart, compiling fails exactly when this happens at some field.
-/

namespace RecordGrammar

variable {settings : GrammarSettings}

/-- The shape at the path `p` is an object with a field `kv`, a string that gets a rule, and this rule has
the name of the key rule of `p`. -/
def TakesKeyName (settings : GrammarSettings) (s : Shape) (p : String) (t : RuleTable) : Prop :=
  ∃ name fields i f text t₁, s = .object name fields ∧ Segment.ofName f.name = "kv" ∧ f.type = .string text ∧
    ¬ text.Plain ∧ Reaches settings fields p [] t i f (keyName p) t₁

/-- The value of some field takes the name of the field's key rule. -/
def KeyClash (settings : GrammarSettings) (s : Shape) (path : String) (t : RuleTable) : Prop :=
  ∃ pos i s₁ p t₁, Visits settings s path t (pos ++ [.field i]) s₁ p t₁ ∧ TakesKeyName settings s₁ p t₁

/-- If a run adds the name of its path's key rule, it is for a string just under the path. -/
theorem Compiles.takesKeyName {s : Shape} {p : String} {t t₁ : RuleTable} {e : Expr}
    (h : Compiles settings s p t e t₁) (hold : keyName p ∉ t.names) (hnew : keyName p ∈ t₁.names) :
    TakesKeyName settings s p t := by
  obtain ⟨pos, hadds⟩ := (h.adds hnew).resolve_left hold
  generalize hn : keyName p = n at hadds
  cases hadds with
  | string hv hnamed =>
    cases hv with
    | here => exact absurd hn keyName_ne_self
    | element _ hv =>
      rcases hv.path_eq_or_under with ⟨-, he⟩ | hu
      · exact absurd (hn.trans he).symm itemName_ne_keyName
      · exact absurd (hn ▸ hu) Under.not_item_keyName
    | field hfield hv =>
      rcases hv.path_eq_or_under with ⟨rfl, he⟩ | hu
      · obtain ⟨hs, -, -⟩ := hv.det .here
        have hfield := hn.trans he ▸ hfield
        exact ⟨_, _, _, _, _, _, rfl, hfield.segment_eq, hs.symm, hnamed, hfield⟩
      · exact absurd (hn ▸ hu) (Under.not_keyName hfield.under)
  | element => exact absurd hn.symm itemName_ne_keyName
  | key hv =>
    rcases hv.path_eq_or_under with ⟨hnil, -⟩ | hu
    · simp at hnil
    · exact absurd (keyName_inj.mp hn).symm hu.ne

/-! ### A duplicate is a clash -/

theorem StringFormat.compile_error {f : StringFormat} {e : GrammarError} (h : f.compile settings = .error e) :
    (∃ s, e = .unknownFormat s) ∧ settings.strictFormats = true := by
  cases f with
  | raw | named | pattern => cases h
  | unknown s =>
    rw [compile] at h
    split at h
    · next hs => cases h; exact ⟨⟨s, rfl⟩, hs⟩
    · cases h

/-- The clash is at one of the fields, or in the value of one. -/
def FieldsClash (settings : GrammarSettings) (fields : List (Field Shape)) (path : String) (used : List String)
    (t : RuleTable) : Prop :=
  ∃ i f p t₁, Reaches settings fields path used t i f p t₁ ∧
    (TakesKeyName settings f.type p t₁ ∨ KeyClash settings f.type p t₁)

theorem KeyClash.within {s s₁ : Shape} {path path₁ : String} {t t₁ : RuleTable} {pos : Position}
    (hv : Visits settings s path t pos s₁ path₁ t₁) (h : KeyClash settings s₁ path₁ t₁) :
    KeyClash settings s path t := by
  obtain ⟨pos', i, s₂, p, t₂, hv', h⟩ := h
  exact ⟨pos ++ pos', i, s₂, p, t₂, by rw [List.append_assoc]; exact hv.append hv', h⟩

mutual

theorem Fails.keyClash : ∀ {s : Shape} {path n : String} {t : RuleTable},
    Fails settings s path t (.duplicateRule n) → KeyClash settings s path t
  | _, _, _, _, .format (f := f) _ h => by
    obtain ⟨⟨_, he⟩, -⟩ := StringFormat.compile_error h
    cases he
  | _, _, _, _, .element hnew h => h.keyClash.within (.element hnew .here)
  | _, _, _, _, .fields h => by
    obtain ⟨i, f, p, t₁, hreach, h | h⟩ := h.keyClash
    · exact ⟨[], i, f.type, p, t₁, .field hreach .here, h⟩
    · exact h.within (.field hreach .here)

theorem FailsFields.keyClash : ∀ {fields : List (Field Shape)} {path n : String} {used : List String} {t : RuleTable},
    FailsFields settings fields path used t (.duplicateRule n) → FieldsClash settings fields path used t
  | _, _, _, _, _, .value h => ⟨0, _, _, _, .head, .inr h.keyClash⟩
  | _, _, _, _, _, .key hvalue hkey =>
    ⟨0, _, _, _, .head, .inl (hvalue.takesKeyName (keyName_fieldPath_not_mem_names _ _ _ _)
      (RuleTable.contains_iff.mp hkey))⟩
  | _, _, _, _, _, .rest hvalue hkey h => by
    obtain ⟨i, f, p, t₁, hreach, h⟩ := h.keyClash
    exact ⟨i + 1, f, p, t₁, .tail hvalue hkey hreach, h⟩

end

/-! ### A clash ends in an error -/

theorem TakesKeyName.mem_names {s : Shape} {p : String} {t t' : RuleTable} {e : Expr}
    (h : TakesKeyName settings s p t) (hc : Compiles settings s p t e t') : keyName p ∈ t'.names := by
  obtain ⟨name, fields, i, f, text, t₁, rfl, -, hf, hnamed, hreach⟩ := h
  cases hc with
  | object hc =>
    obtain ⟨e, t₂, hvalue, -, hext⟩ := hc.reaches hreach
    rw [hf] at hvalue
    refine hext.mem_names (RuleTable.mem_names_push.mpr (.inl ?_))
    cases hvalue with
    | namedString => exact RuleTable.mem_names_ensure.mpr (.inr rfl)
    | plainString h => exact absurd h hnamed

theorem Compiles.not_keyClash {s : Shape} {path : String} {t t' : RuleTable} {e : Expr}
    (h : Compiles settings s path t e t') : ¬ KeyClash settings s path t := by
  rintro ⟨pos, i, s₁, p, t₁, hv, htakes⟩
  obtain ⟨s₀, p₀, t₀, hv₀, hv⟩ := hv.append_inv
  obtain ⟨e₀, t₂, h₀, -⟩ := h.visits hv₀
  cases hv with
  | field hfield hv =>
    obtain ⟨rfl, rfl, rfl⟩ := hv.det .here
    cases h₀ with
    | object h₀ =>
      obtain ⟨e₁, t₃, hvalue, hkey, -⟩ := h₀.reaches hfield
      exact hkey (htakes.mem_names hvalue)

/-! ### The other errors -/

mutual

theorem Fails.not_known : ∀ {s : Shape} {path kind : String} {t : RuleTable},
    Fails settings s path t (.unknownKind kind) → s.every Shape.isKnown = false
  | _, _, _, _, .format _ h => by
    obtain ⟨⟨_, he⟩, -⟩ := StringFormat.compile_error h
    cases he
  | _, _, _, _, .element _ h => by simp [Shape.every, h.not_known]
  | _, _, _, _, .fields h => by simp [Shape.every, h.not_known]
  | _, _, _, _, .custom => rfl

theorem FailsFields.not_known : ∀ {fields : List (Field Shape)} {path kind : String} {used : List String}
    {t : RuleTable}, FailsFields settings fields path used t (.unknownKind kind) →
    Shape.everyField Shape.isKnown fields = false
  | ⟨_, _, _⟩ :: _, _, _, _, _, .value h => by simp [Shape.everyField, h.not_known]
  | ⟨_, _, _⟩ :: _, _, _, _, _, .rest _ _ h => by simp [Shape.everyField, h.not_known]

end

mutual

/-- An error other than a duplicate comes from a policy of the settings or an unknown kind. -/
theorem Fails.policy : ∀ {s : Shape} {path : String} {t : RuleTable} {e : GrammarError},
    Fails settings s path t e → match e with
      | .duplicateRule _ | .unknownKind _ => True
      | .unknownFormat _ => settings.strictFormats = true
      | .reversedItems _ min max => max < min ∧ settings.clampArrayBounds = false
  | _, _, _, _, .format _ h => by
    obtain ⟨⟨_, rfl⟩, hstrict⟩ := StringFormat.compile_error h
    exact hstrict
  | _, _, _, _, .element _ h => h.policy
  | _, _, _, _, .limits hrev hclamp => ⟨hrev, hclamp⟩
  | _, _, _, _, .fields h => h.policy
  | _, _, _, _, .custom => trivial

theorem FailsFields.policy : ∀ {fields : List (Field Shape)} {path : String} {used : List String} {t : RuleTable}
    {e : GrammarError}, FailsFields settings fields path used t e → match e with
      | .duplicateRule _ | .unknownKind _ => True
      | .unknownFormat _ => settings.strictFormats = true
      | .reversedItems _ min max => max < min ∧ settings.clampArrayBounds = false
  | _, _, _, _, _, .value h => h.policy
  | _, _, _, _, _, .key _ _ => trivial
  | _, _, _, _, _, .rest _ _ h => h.policy

end

theorem EndMarker.ofString_text (m : EndMarker) : EndMarker.ofString m.text = .ok m := by
  have h : m.tail ≠ [] ∧ '<' ∉ m.tail := ⟨m.tail_ne_nil, m.lt_not_mem⟩
  simp [ofString, ofString?, text, h]

/-- How compiling a grammar can end. The end marker of settings is always one that can be compiled, and
of the errors each has its reason: a policy, an unknown kind, or a field whose value takes the name of
its key rule. No grammar is made where there is such a field. -/
theorem grammar_outcome (settings : GrammarSettings) (shape : Shape) :
    EndMarker.ofString settings.thinkingEnd.text = .ok settings.thinkingEnd ∧
    match (shape.grammar settings).1 with
    | .ok _ => ¬ KeyClash settings shape "root" (seedTable settings)
    | .error (.duplicateRule _) => KeyClash settings shape "root" (seedTable settings)
    | .error (.unknownFormat _) => settings.strictFormats = true
    | .error (.reversedItems _ min max) => max < min ∧ settings.clampArrayBounds = false
    | .error (.unknownKind _) => shape.every Shape.isKnown = false := by
  refine ⟨EndMarker.ofString_text _, ?_⟩
  rcases grammar_cases shape settings with ⟨e, t, h, hres⟩ | ⟨e, h, hres⟩
  · rw [hres]
    exact h.not_keyClash
  · rw [hres]
    cases e with
    | duplicateRule => exact h.keyClash
    | unknownFormat | reversedItems => exact h.policy
    | unknownKind => exact h.not_known

/-- A string `kv` in an object takes the name that the rule of the object's field is to get. -/
theorem grammar_eq_duplicateRule :
    ((Shape.object "Order" [{ name := "x", type := .object "Part" [{ name := "kv", type := .string { allowed := ["a"] } }] }]).grammar
      {}).1 = .error (.duplicateRule "root-x-kv") := by
  rfl

end RecordGrammar
