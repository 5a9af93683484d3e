import RecordGrammar.Proofs.Grammar.Visit
import RecordGrammar.Proofs.JsonSchema.Descent
import RecordGrammar.Proofs.JsonSchema.Run

/-!
# Where the shapes of a document come from

`Combines document fs os gs`: from the schema `fs` reading comes to `gs`, the merger of the schemas `os`. A part goes before the
schema it is merged into; what a reference leads to takes the place of everything before it. `Places document fs pos os gs`:
what stands at the position `pos` of the shape of `fs` is read from `gs`, the merger of `os`. Every position of the shape has
a place (`Reads.exists_places`) and every place a position (`Places.exists_at`).
-/

namespace RecordGrammar.JsonSchema
open Json

inductive Combines (document fs : Fields) : List Fields → Fields → Prop
  | self : Combines document fs [fs] fs
  | definition {os : List Fields} {gs target : Fields} {r : String} (h : Combines document fs os gs)
    (hr : gs.text? "$ref" = some r) (htarget : resolve document r = .ok (.obj target)) :
    Combines document fs [target] target
  | part {os : List Fields} {gs part : Fields} (h : Combines document fs os gs) (hr : gs.text? "$ref" = none)
    (ha : gs.get? "allOf" = some (.arr [.obj part])) : Combines document fs (part :: os) (mergePart gs part)

inductive Places (document : Fields) : Fields → Position → List Fields → Fields → Prop
  | here {fs gs : Fields} {os : List Fields} {type : String} (h : Combines document fs os gs) (hs : Settled gs type) :
    Places document fs [] os gs
  | element {fs gs items gs' : Fields} {os os' : List Fields} {pos : Position} (h : Combines document fs os gs)
    (hs : Settled gs "array") (hitems : gs.get? "items" = some (.obj items)) (hp : Places document items pos os' gs') :
    Places document fs (.element :: pos) os' gs'
  | field {fs gs property gs' : Fields} {os os' : List Fields} {pos : Position} {i : Nat} {name : String}
    (h : Combines document fs os gs) (hs : Settled gs "object")
    (hi : (gs.fieldsAt "properties")[i]? = some (name, .obj property)) (hp : Places document property pos os' gs') :
    Places document fs (.field i :: pos) os' gs'

variable {document fs gs properties target part items : Fields} {os : List Fields} {hint : Option String} {d : Bool}
  {s n : Shape} {pos : Position} {fields : List (Field Shape)} {r : String} {i : Nat}

/-! ### Inversion of readings -/

namespace Reads

theorem of_definition (h : Reads document fs hint d s) (hr : fs.text? "$ref" = some r)
    (htarget : resolve document r = .ok (.obj target)) : Reads document target (some (referenceName r)) true s := by
  cases h with
  | definition hr' ht h =>
    cases hr.symm.trans hr'
    cases htarget.symm.trans ht
    exact h
  | part hr' => cases hr.symm.trans hr'
  | string hs | integer hs | number hs | boolean hs | array hs | object hs => cases hr.symm.trans hs.reference

theorem of_part (h : Reads document fs hint d s) (hr : fs.text? "$ref" = none) (ha : fs.get? "allOf" = some (.arr [.obj part])) :
    Reads document (mergePart fs part) hint d s := by
  cases h with
  | definition hr' => cases hr.symm.trans hr'
  | part _ ha' h =>
    cases ha.symm.trans ha'
    exact h
  | string hs | integer hs | number hs | boolean hs | array hs | object hs => cases ha.symm.trans hs.parts

theorem of_array (h : Reads document fs hint d s) (hs : Settled fs "array") :
    ∃ items element lo hi, fs.get? "items" = some (.obj items) ∧ Reads document items none false element ∧
      boundOfJson "min_items" ((fs.get? "minItems").getD .null) = .ok lo ∧
      boundOfJson "max_items" ((fs.get? "maxItems").getD .null) = .ok hi ∧ s = .array element lo hi "array" := by
  cases h with
  | definition hr => cases hr.symm.trans hs.reference
  | part _ ha => cases ha.symm.trans hs.parts
  | array _ hitems h hlo hhi => exact ⟨_, _, _, _, hitems, h, hlo, hhi, rfl⟩
  | string hs' | integer hs' | number hs' | boolean hs' | object hs' =>
    exact absurd (hs.type_eq hs') (by decide)

theorem of_object (h : Reads document fs hint d s) (hs : Settled fs "object") :
    ∃ name fields, ReadsFields document (fs.fieldsAt "properties") fields ∧ s = .object name fields := by
  cases h with
  | definition hr => cases hr.symm.trans hs.reference
  | part _ ha => cases ha.symm.trans hs.parts
  | object _ h => exact ⟨_, _, h, rfl⟩
  | string hs' | integer hs' | number hs' | boolean hs' | array hs' =>
    exact absurd (hs.type_eq hs') (by decide)

end Reads

namespace ReadsFields

theorem exists_field (h : ReadsFields document properties fields) {name : String} {property : Fields}
    (hi : properties[i]? = some (name, .obj property)) :
    ∃ f, fields[i]? = some f ∧ Reads document property (some name) false f.type := by
  induction properties generalizing fields i with
  | nil => cases hi
  | cons p properties ih =>
    cases i with
    | zero =>
      cases h with
      | cons h =>
        cases hi
        exact ⟨_, rfl, h⟩
    | succ i =>
      cases h with
      | cons _ hrest =>
        obtain ⟨f, hf, h⟩ := ih hrest hi
        exact ⟨f, hf, h⟩

theorem exists_property (h : ReadsFields document properties fields) {f : Field Shape} (hi : fields[i]? = some f) :
    ∃ name property, properties[i]? = some (name, .obj property) ∧ Reads document property (some name) false f.type := by
  induction properties generalizing fields i with
  | nil =>
    cases h
    cases hi
  | cons p properties ih =>
    cases i with
    | zero =>
      cases h with
      | cons h =>
        cases hi
        exact ⟨_, _, rfl, h⟩
    | succ i =>
      cases h with
      | cons _ hrest => exact ih hrest hi

end ReadsFields

/-! ### Places and positions -/

theorem Combines.reads (hc : Combines document fs os gs) (h : Reads document fs hint d s) : ∃ hint d, Reads document gs hint d s := by
  induction hc with
  | self => exact ⟨hint, d, h⟩
  | definition _ hr htarget ih =>
    obtain ⟨hint, d, h⟩ := ih
    exact ⟨_, _, h.of_definition hr htarget⟩
  | part _ hr ha ih =>
    obtain ⟨hint, d, h⟩ := ih
    exact ⟨_, _, h.of_part hr ha⟩

/-- What is read has in the end a type by itself. -/
theorem Reads.exists_combines : ∀ {root fs : Fields} {os : List Fields} {hint : Option String} {d : Bool} {s : Shape},
    Reads document fs hint d s → Combines document root os fs →
    ∃ os gs type hint d, Combines document root os gs ∧ Settled gs type ∧ Reads document gs hint d s
  | _, _, _, _, _, _, .definition hr htarget h, hc => h.exists_combines (.definition hc hr htarget)
  | _, _, _, _, _, _, .part hr ha h, hc => h.exists_combines (.part hc hr ha)
  | _, _, _, _, _, _, .string hs h, hc => ⟨_, _, _, _, _, hc, hs, .string hs h⟩
  | _, _, _, hint, d, _, .integer hs he hv, hc => ⟨_, _, _, hint, d, hc, hs, .integer hs he hv⟩
  | _, _, _, hint, d, _, .number hs he hv, hc => ⟨_, _, _, hint, d, hc, hs, .number hs he hv⟩
  | _, _, _, hint, d, _, .boolean hs, hc => ⟨_, _, _, hint, d, hc, hs, .boolean hs⟩
  | _, _, _, hint, d, _, .array hs hitems h hlo hhi, hc => ⟨_, _, _, hint, d, hc, hs, .array hs hitems h hlo hhi⟩
  | _, _, _, hint, d, _, .object hs h, hc => ⟨_, _, _, hint, d, hc, hs, .object hs h⟩

theorem Places.settled (hp : Places document fs pos os gs) : ∃ type, Settled gs type := by
  induction hp with
  | here _ hs => exact ⟨_, hs⟩
  | element _ _ _ _ ih | field _ _ _ _ ih => exact ih

theorem Places.exists_at (hp : Places document fs pos os gs) (h : Reads document fs hint d s) :
    ∃ n hint d, s.at? pos = some n ∧ Reads document gs hint d n := by
  induction hp generalizing hint d s with
  | here hc hs =>
    obtain ⟨hint, d, h⟩ := hc.reads h
    exact ⟨s, hint, d, rfl, h⟩
  | element hc hs hitems _ ih =>
    obtain ⟨_, _, h⟩ := hc.reads h
    obtain ⟨items', element, lo, hi, hitems', helement, -, -, rfl⟩ := h.of_array hs
    cases hitems.symm.trans hitems'
    rw [Shape.at?]
    exact ih helement
  | field hc hs hi _ ih =>
    obtain ⟨_, _, h⟩ := hc.reads h
    obtain ⟨name, fields, hfields, rfl⟩ := h.of_object hs
    obtain ⟨f, hf, hvalue⟩ := hfields.exists_field hi
    rw [Shape.at?, hf]
    exact ih hvalue

theorem Reads.exists_places (h : Reads document fs hint d s) (hn : s.at? pos = some n) :
    ∃ os gs hint d, Places document fs pos os gs ∧ Reads document gs hint d n := by
  induction pos generalizing fs hint d s with
  | nil =>
    cases hn
    obtain ⟨os, gs, _, hint, d, hc, hs, h⟩ := h.exists_combines .self
    exact ⟨os, gs, hint, d, .here hc hs, h⟩
  | cons step pos ih =>
    obtain ⟨os, gs, _, _, _, hc, hs, h⟩ := h.exists_combines .self
    cases h with
    | definition hr => cases hr.symm.trans hs.reference
    | part _ ha => cases ha.symm.trans hs.parts
    | string _ h => cases h <;> simp [Shape.at?] at hn
    | integer | number | boolean => simp [Shape.at?] at hn
    | array hs hitems helement =>
      cases step with
      | field => simp [Shape.at?] at hn
      | element =>
        rw [Shape.at?] at hn
        obtain ⟨os', gs', hint, d, hp, h⟩ := ih helement hn
        exact ⟨os', gs', hint, d, .element hc hs hitems hp, h⟩
    | object hs hfields =>
      cases step with
      | element => simp [Shape.at?] at hn
      | field i =>
        rw [Shape.at?] at hn
        split at hn
        · next f hf =>
          obtain ⟨name, property, hi, hvalue⟩ := hfields.exists_property hf
          obtain ⟨os', gs', hint, d, hp, h⟩ := ih hvalue hn
          exact ⟨os', gs', hint, d, .field hc hs hi hp, h⟩
        · cases hn

/-! ### What a merger holds -/

theorem Combines.hasDistinctKeys (hc : Combines document fs os gs) (hdoc : (Json.obj document).hasDistinctKeys = true)
    (hfs : (Json.obj fs).hasDistinctKeys = true) : (Json.obj gs).hasDistinctKeys = true := by
  induction hc with
  | self => exact hfs
  | definition _ _ htarget => exact hasDistinctKeys_of_resolve hdoc htarget
  | part _ hr ha ih => exact (Opens.part hr ha).hasDistinctKeys ih

/-- A merger holds for each keyword but `allOf` what the first of its schemas with the keyword holds. -/
theorem Combines.get?_eq (hc : Combines document fs os gs) (hdoc : (Json.obj document).hasDistinctKeys = true)
    (hfs : (Json.obj fs).hasDistinctKeys = true) {key : String} (hkey : key ≠ "allOf") :
    gs.get? key = os.findSome? fun o => o.get? key := by
  induction hc with
  | self | definition => simp
  | @part os gs part hc _ ha ih =>
    have hpart : (Json.obj part).hasDistinctKeys = true :=
      hasDistinctKeys_of_mem_children (hc.hasDistinctKeys hdoc hfs)
        (mem_children_iff.mpr (.inr (.inr ⟨_, ha, List.mem_singleton_self _⟩)))
    rw [mergePart, Fields.get?_merge (hasDistinctKeys_obj.mp hpart).1, Fields.get?_erase, if_neg hkey, ih, List.findSome?_cons]
    cases part.get? key <;> rfl

theorem Places.exists_combines (hp : Places document fs pos os gs) (hdoc : (Json.obj document).hasDistinctKeys = true)
    (hfs : (Json.obj fs).hasDistinctKeys = true) :
    ∃ start, (Json.obj start).hasDistinctKeys = true ∧ Combines document start os gs := by
  induction hp with
  | here hc => exact ⟨_, hfs, hc⟩
  | element hc hs hitems _ ih =>
    refine ih (hasDistinctKeys_of_mem_children (hc.hasDistinctKeys hdoc hfs) ?_)
    exact mem_children_iff.mpr (.inr (.inl ⟨_, hitems, rfl⟩))
  | @field fs gs property gs' os os' pos i name hc hs hi _ ih =>
    refine ih (hasDistinctKeys_of_mem_children (hc.hasDistinctKeys hdoc hfs) ?_)
    rw [children, List.append_assoc]
    exact List.mem_append_left _ (List.mem_map.mpr ⟨_, List.mem_of_getElem? hi, rfl⟩)

end RecordGrammar.JsonSchema
