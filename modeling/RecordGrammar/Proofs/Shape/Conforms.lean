import RecordGrammar.Proofs.Json.Strings
import RecordGrammar.Proofs.Shape.Every

/-!
# The values of a shape

`Shape.Conforms settings s v`: the JSON value `v` is of the shape `s`. `Shape.written`: every text of a shape is JSON
and its value conforms, whatever the text is followed by. Values carry the white space behind them, so the gaps of
the JSON grammar are found where the shape's texts have them.
-/

namespace RecordGrammar
open JsonText

/-- Whether a value is of a scalar's kind. An integer has neither a fraction nor an exponent. -/
def Scalar.Conforms : Scalar → Value → Prop
  | integer, v => ∃ w, v = .number w ∧ ∀ c ∈ w, (c = '-' || c.isDigit) = true
  | decimal, v => ∃ w, v = .number w
  | boolean, v => ∃ b, v = .bool b
  | date, v => ∃ u, v = .string u
  | guid, v => ∃ u, v = .string u

/-- Whether a value is a string, and one of the allowed ones if there are any. -/
def StringShape.Conforms (text : StringShape) (v : Value) : Prop :=
  ∃ u, v = .string u ∧ (text.allowed ≠ [] → ∃ s ∈ text.allowed, u = utf16 s)

mutual

/-- Whether a value is of the shape. -/
def Shape.Conforms (settings : GrammarSettings) : Shape → Value → Prop
  | .string text, v => text.Conforms v
  | .scalar kind _, v => kind.Conforms v
  | .enum _ values, v => ∃ s ∈ values, v = .string (utf16 s)
  | .array element lo hi _, v =>
    let limits := clampedLimits lo hi settings.items
    ∃ vs, v = .array vs ∧ limits.1 ≤ vs.length ∧ vs.length ≤ limits.2 ∧ ∀ e ∈ vs, element.Conforms settings e
  | .object _ fields, v => ∃ ms, v = .object ms ∧ Shape.FieldsConform settings fields ms
  | .custom _, _ => False

/-- Whether the members of an object are the fields, in order. -/
def Shape.FieldsConform (settings : GrammarSettings) : List (Field Shape) → List (List Nat × Value) → Prop
  | [], ms => ms = []
  | ⟨name, type, _⟩ :: rest, ms =>
    ∃ v ms', ms = (utf16 name, v) :: ms' ∧ type.Conforms settings v ∧ Shape.FieldsConform settings rest ms'

end

/-- Whether the pattern of a string, if it has one, can stand in a JSON string as it is. -/
def Shape.hasPlainPattern : Shape → Bool
  | .string text =>
    match text.activeFormat? with
    | some (.pattern s) => s.toList.all isPlain
    | _ => true
  | _ => true

variable {settings : GrammarSettings} {w : List Char}

/-- A text of a value with the property, with white space behind it. -/
def Written (P : Value → Prop) (w : List Char) : Prop :=
  ∃ t g v, Spells t v ∧ IsGap g ∧ P v ∧ w = t ++ g

theorem isGap_of_mem {g : List Char} (h : g ∈ gapTexts) : IsGap g := by
  have hmem : gapTexts ∈ madeOf Json.isGap := gapTexts_mem_madeOf rfl rfl rfl
  exact hmem g h

theorem written_of_mul_gap {P : Value → Prop} {l : Language Char} (hl : ∀ t ∈ l, ∃ v, Spells t v ∧ P v)
    (h : w ∈ l * gapTexts) : Written P w := by
  obtain ⟨t, ht, g, hg, rfl⟩ := h
  obtain ⟨v, hv, hP⟩ := hl t ht
  exact ⟨t, g, v, hv, isGap_of_mem hg, hP, rfl⟩

/-! ### Scalars -/

theorem digits_of_mem_runs {l : Language Char} {lo hi : Nat} (h : w ∈ runs l lo hi) : w ∈ 1 + someRuns l := by
  obtain ⟨n, _, _, hw⟩ := h
  rcases Nat.eq_zero_or_pos n with rfl | hn
  · exact .inl hw
  · exact .inr ⟨n, hn, hw⟩

theorem mem_numberTexts {sign whole fraction : List Char} (hsign : sign ∈ 1 + just "-")
    (hwhole : whole ∈ just "0" + digitOf 1 9 * runs digitTexts 0 15) (hfraction : fraction ∈ 1 + just "." * runs digitTexts 1 15) :
    sign ++ whole ++ fraction ∈ numberTexts := by
  have hw : whole ∈ just "0" + digitOf 1 9 * (1 + someRuns (digitOf 0 9)) := by
    rcases hwhole with h | ⟨d, hd, ds, hds, rfl⟩
    · exact .inl h
    · exact .inr ⟨d, hd, ds, digits_of_mem_runs hds, rfl⟩
  have hf : fraction ∈ 1 + just "." * someRuns (digitOf 0 9) := by
    rcases hfraction with h | ⟨p, hp, ds, ⟨n, hlo, _, hds⟩, rfl⟩
    · exact .inl h
    · exact .inr ⟨p, hp, ds, ⟨n, hlo, hds⟩, rfl⟩
  exact ⟨_, ⟨_, ⟨sign, hsign, whole, hw, rfl⟩, fraction, hf, rfl⟩, [], .inl rfl, List.append_nil _⟩

theorem spells_of_mem_quoted {l : Language Char} (hl : l ∈ strings) (h : w ∈ quoted l) : ∃ u, Spells w (.string u) := by
  obtain ⟨s, hs, rfl⟩ := mem_quoted.mp h
  obtain ⟨u, hu⟩ := hl s hs
  exact ⟨u, .string hu⟩

theorem Scalar.spells {kind : Scalar} (h : w ∈ kind.texts) : ∃ v, Spells w v ∧ kind.Conforms v := by
  cases kind with
  | integer =>
    have hdigit : ∀ {lo hi : Nat}, hi ≤ 9 → digitOf lo hi ∈ madeOf fun c => c = '-' || c.isDigit :=
      digitOf_mem_madeOf fun c hc => by rw [hc, Bool.or_true]
    have hchars : Scalar.integer.texts ∈ madeOf fun c => c = '-' || c.isDigit :=
      add_mem (mul_mem (add_mem (one_mem _) (just_mem_madeOf (by decide))) (just_mem_madeOf (by decide)))
        (mul_mem (hdigit (by omega)) (runs_mem_within (hdigit (by omega))))
    have hnumber : w ∈ numberTexts := by
      rcases h with ⟨sign, hsign, zero, hzero, rfl⟩ | h
      · have := mem_numberTexts hsign (.inl hzero) (.inl rfl)
        rwa [List.append_nil] at this
      · have := mem_numberTexts (.inl rfl) (.inr h) (.inl rfl)
        rwa [List.nil_append, List.append_nil] at this
    exact ⟨_, .number hnumber, w, rfl, hchars w h⟩
  | decimal =>
    obtain ⟨_, ⟨sign, hsign, whole, hwhole, rfl⟩, fraction, hfraction, rfl⟩ := h
    exact ⟨_, .number (mem_numberTexts hsign hwhole hfraction), _, rfl⟩
  | boolean =>
    rcases h with rfl | rfl
    · exact ⟨_, .yes, true, rfl⟩
    · exact ⟨_, .no, false, rfl⟩
  | date =>
    obtain ⟨u, hu⟩ := spells_of_mem_quoted (mem_strings_of_madeOf dateTexts_mem) h
    exact ⟨_, hu, u, rfl⟩
  | guid =>
    obtain ⟨u, hu⟩ := spells_of_mem_quoted (mem_strings_of_madeOf guidTexts_mem) h
    exact ⟨_, hu, u, rfl⟩

/-! ### Strings -/

theorem spells_of_mem_literalsOf {values : List String} (h : w ∈ literalsOf values) :
    ∃ s ∈ values, Spells w (.string (utf16 s)) := by
  obtain ⟨s, hs, rfl⟩ := mem_literalsOf.mp h
  exact ⟨s, hs, spells_literal s⟩

theorem StringFormat.texts_mem {f : StringFormat} (h : ∀ s, f = .pattern s → s.toList.all isPlain = true) :
    f.texts settings ∈ strings := by
  cases f with
  | raw r => exact zero_mem _
  | named f => exact someRuns_mem_within (mem_strings_of_madeOf (oneChar_mem_madeOf fun _ hc => isPlain_of_holds hc))
  | pattern s =>
    refine list_prod_mem fun l hl => ?_
    obtain ⟨c, hc, rfl⟩ := List.mem_map.mp hl
    exact patternTexts_mem _ (List.all_eq_true.mp (h s rfl) c hc)
  | unknown s => exact runs_mem_within (charTexts_mem _)

theorem StringShape.spells {text : StringShape} (hplain : (Shape.string text).hasPlainPattern = true)
    (h : w ∈ text.texts settings) : ∃ v, Spells w v ∧ text.Conforms v := by
  rw [StringShape.texts] at h
  split at h
  · obtain ⟨s, hs, hw⟩ := spells_of_mem_literalsOf h
    exact ⟨_, hw, _, rfl, fun _ => ⟨s, hs, rfl⟩⟩
  · next hnone =>
    have hquoted : ∀ l ∈ strings, w ∈ quoted l → ∃ v, Spells w v ∧ text.Conforms v := fun l hl hw => by
      obtain ⟨u, hu⟩ := spells_of_mem_quoted hl hw
      exact ⟨_, hu, u, rfl, fun hne => absurd hne hnone⟩
    split at h
    · next f hf =>
      refine hquoted _ (StringFormat.texts_mem ?_) h
      rintro s rfl
      simpa only [Shape.hasPlainPattern, hf] using hplain
    · exact hquoted _ (runs_mem_within (charTexts_mem _)) h

/-! ### Arrays and objects -/

theorem elements_of_joined {P : Value → Prop} {l : Language Char} (hl : ∀ t ∈ l, Written P t) (n : Nat)
    (h : w ∈ joined commaTexts (List.replicate (n + 1) l)) :
    ∃ vs, Elements (w ++ [']']) vs ∧ vs.length = n + 1 ∧ ∀ v ∈ vs, P v := by
  induction n generalizing w with
  | zero =>
    obtain ⟨t, g, v, hv, hg, hP, rfl⟩ := hl w h
    rw [List.append_assoc]
    exact ⟨[v], .last hv hg, rfl, List.forall_mem_singleton.mpr hP⟩
  | succ n ih =>
    obtain ⟨_, ⟨a, ha, _, ⟨_, rfl, k, hk, rfl⟩, rfl⟩, b, hb, rfl⟩ := h
    obtain ⟨t, g, v, hv, hg, hP, rfl⟩ := hl a ha
    obtain ⟨vs, hvs, hlen, hall⟩ := ih hb
    have h := Elements.cons hv hg (isGap_of_mem hk) hvs
    refine ⟨v :: vs, ?_, congrArg (· + 1) hlen, List.forall_mem_cons.mpr ⟨hP, hall⟩⟩
    simpa using h

/-- The text is `n` texts of the language, with commas between them, in brackets. -/
def HasElements (l : Language Char) (n : Nat) (w : List Char) : Prop :=
  w ∈ token "[" * joined commaTexts (List.replicate n l) * token "]"

/-- Values in brackets are an array of as many. -/
theorem HasElements.written {P : Value → Prop} {l : Language Char} {n : Nat} (hl : ∀ t ∈ l, Written P t)
    (h : HasElements l n w) : Written (fun v => ∃ vs, v = .array vs ∧ vs.length = n ∧ ∀ e ∈ vs, P e) w := by
  obtain ⟨_, ⟨_, ⟨_, rfl, g, hg, rfl⟩, b, hb, rfl⟩, _, ⟨_, rfl, k, hk, rfl⟩, rfl⟩ := h
  rcases n with _ | n
  · refine ⟨_, k, .array [], .emptyArray (isGap_of_mem hg), isGap_of_mem hk, ⟨[], rfl, rfl, List.forall_mem_nil P⟩, ?_⟩
    cases hb
    simp
  · obtain ⟨vs, hvs, hlen, hall⟩ := elements_of_joined hl n hb
    refine ⟨_, k, .array vs, .array (isGap_of_mem hg) hvs, isGap_of_mem hk, ⟨vs, rfl, hlen, hall⟩, ?_⟩
    simp

/-- The name of a field, its colon and its value are a member, with white space behind it. -/
theorem member_of_mem {P : Value → Prop} {name : String} {l : Language Char} (hl : ∀ t ∈ l, Written P t)
    (h : w ∈ token (Json.literal name) * token ":" * l) :
    ∃ t g v, Member t (utf16 name, v) ∧ IsGap g ∧ P v ∧ w = t ++ g := by
  obtain ⟨_, ⟨_, ⟨_, rfl, g, hg, rfl⟩, _, ⟨_, rfl, k, hk, rfl⟩, rfl⟩, a, ha, rfl⟩ := h
  obtain ⟨t, e, v, hv, he, hP, rfl⟩ := hl a ha
  refine ⟨_, e, v, .mk (chars_literal name.toList) (isGap_of_mem hg) (isGap_of_mem hk) hv, he, hP, ?_⟩
  simp [Json.literal, Json.literalChars]

theorem members_of_joined {f : Field Shape} {rest : List (Field Shape)}
    (hl : ∀ f' ∈ f :: rest, ∀ t ∈ f'.type.texts settings, Written (f'.type.Conforms settings) t)
    (h : w ∈ joined commaTexts (Shape.fieldTexts settings (f :: rest))) :
    ∃ ms, Members (w ++ ['\x7d']) ms ∧ Shape.FieldsConform settings (f :: rest) ms := by
  induction rest generalizing f w with
  | nil =>
    obtain ⟨t, g, v, hm, hg, hv, rfl⟩ := member_of_mem (hl f List.mem_cons_self) h
    rw [List.append_assoc]
    exact ⟨_, .last hm hg, v, [], rfl, hv, rfl⟩
  | cons f' rest ih =>
    obtain ⟨_, ⟨a, ha, _, ⟨_, rfl, k, hk, rfl⟩, rfl⟩, b, hb, rfl⟩ := h
    obtain ⟨t, g, v, hm, hg, hv, rfl⟩ := member_of_mem (hl f List.mem_cons_self) ha
    obtain ⟨ms, hms, hconf⟩ := ih (fun f' hf' => hl f' (List.mem_cons_of_mem f hf')) hb
    have h := Members.cons hm hg (isGap_of_mem hk) hms
    refine ⟨_ :: ms, ?_, v, ms, rfl, hv, hconf⟩
    simpa using h

mutual

/-- Every text of a shape is that of a value of the shape, with white space behind it. -/
theorem Shape.written : ∀ shape : Shape, shape.every Shape.hasPlainPattern = true →
    ∀ w ∈ shape.texts settings, Written (shape.Conforms settings) w
  | .string _, hplain, _, h => written_of_mul_gap (fun _ ht => StringShape.spells (Shape.every_self hplain) ht) h
  | .scalar _ _, _, _, h => written_of_mul_gap (fun _ ht => Scalar.spells ht) h
  | .enum _ _, _, _, h => written_of_mul_gap (fun _ ht => by
      obtain ⟨s, hs, hw⟩ := spells_of_mem_literalsOf ht
      exact ⟨_, hw, s, hs, rfl⟩) h
  | .array element _ _ _, hplain, _, h => by
    obtain ⟨n, hlo, hhi, hw⟩ := (mul_listOf_mul _ _ _ _ _ _).mp h
    obtain ⟨t, g, v, hv, hg, ⟨vs, rfl, rfl, hall⟩, rfl⟩ :=
      HasElements.written (element.written (Shape.every_element hplain)) hw
    exact ⟨t, g, .array vs, hv, hg, ⟨vs, rfl, hlo, hhi, hall⟩, rfl⟩
  | .object _ [], _, _, h => by
    obtain ⟨_, ⟨_, ⟨_, rfl, g, hg, rfl⟩, b, hb, rfl⟩, _, ⟨_, rfl, k, hk, rfl⟩, rfl⟩ := h
    refine ⟨_, k, .object [], .emptyObject (isGap_of_mem hg), isGap_of_mem hk, ⟨[], rfl, rfl⟩, ?_⟩
    cases hb
    simp
  | .object _ (f :: rest), hplain, _, h => by
    obtain ⟨_, ⟨_, ⟨_, rfl, g, hg, rfl⟩, b, hb, rfl⟩, _, ⟨_, rfl, k, hk, rfl⟩, rfl⟩ := h
    obtain ⟨ms, hms, hconf⟩ := members_of_joined (Shape.fieldsWritten (f :: rest) (Shape.every_fields hplain)) hb
    refine ⟨_, k, .object ms, .object (isGap_of_mem hg) hms, isGap_of_mem hk, ⟨ms, rfl, hconf⟩, ?_⟩
    simp
  | .custom _, _, _, h => absurd h (Language.notMem_zero _)

theorem Shape.fieldsWritten : ∀ fields : List (Field Shape), Shape.everyField Shape.hasPlainPattern fields = true →
    ∀ f ∈ fields, ∀ w ∈ f.type.texts settings, Written (f.type.Conforms settings) w
  | [], _ => nofun
  | ⟨_, type, _⟩ :: rest, hplain => by
    have htype := type.written (Shape.everyField_of_mem hplain _ List.mem_cons_self)
    exact List.forall_mem_cons.mpr ⟨htype, Shape.fieldsWritten rest (Shape.everyField_tail hplain)⟩

end

end RecordGrammar
