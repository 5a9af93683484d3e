import Mathlib
import RecordGrammar.Grammar.Compile

/-!
# Runs of the compiler

`Compiles settings s path t e t'`: compiling the shape `s` at `path` turns the table `t` into `t'` and
gives `e` to stand in the place of the shape. `Fails` says with which error a run ends instead. Both are
read off the compiler once, in `compileShape_ended` and `Compiles.exec_eq`; every other proof about a run
is an induction over these relations. Notices do not appear in them: no rule depends on a notice.
-/

namespace RecordGrammar
open Compiling

/-- The name of the rule for the elements of the array at a path. -/
abbrev itemName (path : String) : String := path ++ "-item"

/-- The name of the rule for the field at a path. -/
abbrev keyName (path : String) : String := path ++ "-kv"

/-- The path of a field of the object at `path`. -/
abbrev fieldPath (t : RuleTable) (used : List String) (path name : String) : String :=
  freePath t used (path ++ "-" ++ Segment.ofName name)

/-- The bounds in force, with the lower one brought down to the upper one. -/
def clampedLimits (min max : Option Nat) (default : Limits) : Nat × Nat :=
  let limits := effectiveLimits min max default
  (Nat.min limits.1 limits.2, limits.2)

/-- Whether the bounds in force are in the wrong order. -/
def Reversed (min max : Option Nat) (default : Limits) : Prop :=
  (effectiveLimits min max default).2 < (effectiveLimits min max default).1

/-- The table with a rule at the end, unless there is one of that name. -/
def RuleTable.ensure (t : RuleTable) (name : String) (body : Expr) : RuleTable :=
  if t.contains name then t else t.push name body

namespace StringShape

/-- The format that counts: none beside allowed values, and the empty text is none. -/
def activeFormat? (text : StringShape) : Option StringFormat :=
  if text.allowed ≠ [] then none
  else match text.format with
    | none | some "" => none
    | some format => some (.ofString format)

/-- What the rule of a string says, if the string gets one. -/
inductive RuleBody (settings : GrammarSettings) (text : StringShape) : Expr → Prop
  | values (h : text.allowed ≠ []) : RuleBody settings text (.anyText text.allowed)
  | format {f : StringFormat} {body : Expr} {ns : List Notice} (hf : text.activeFormat? = some f)
    (h : f.compile settings = .ok (body, ns)) : RuleBody settings text body

/-- A string without allowed values and without a format is written where it stands. -/
def Plain (text : StringShape) : Prop := text.allowed = [] ∧ text.activeFormat? = none

theorem RuleBody.not_plain {settings : GrammarSettings} {text : StringShape} {body : Expr}
    (h : text.RuleBody settings body) : ¬ text.Plain := fun hp => by
  cases h with
  | values h => exact h hp.1
  | format hf _ => rw [hp.2] at hf; cases hf

end StringShape

mutual

inductive Compiles (settings : GrammarSettings) : Shape → String → RuleTable → Expr → RuleTable → Prop
  | namedString {text : StringShape} {path : String} {t : RuleTable} {body : Expr}
    (h : text.RuleBody settings body) :
    Compiles settings (.string text) path t (.rule path) (t.ensure path body)
  | plainString {text : StringShape} {path : String} {t : RuleTable} (h : text.Plain) :
    Compiles settings (.string text) path t
      (boundedStringExpr (clampedLimits text.minLength text.maxLength settings.lengths).1
        (clampedLimits text.minLength text.maxLength settings.lengths).2) t
  | scalar {kind : Scalar} {name path : String} {t : RuleTable} :
    Compiles settings (.scalar kind name) path t (scalarExpr kind) t
  | enum {name path : String} {values : List String} {t : RuleTable} :
    Compiles settings (.enum name values) path t (.anyText values) t
  /-- A rule of the right name is there: it is taken, and the element is not looked at. -/
  | sharedArray {element : Shape} {lo hi : Option Nat} {name path : String} {t : RuleTable}
    (hold : t.contains (itemName path) = true)
    (hlim : Reversed lo hi settings.items → settings.clampArrayBounds = true) :
    Compiles settings (.array element lo hi name) path t
      (arrayExpr (itemName path) (clampedLimits lo hi settings.items).1
        (clampedLimits lo hi settings.items).2) t
  | array {element : Shape} {lo hi : Option Nat} {name path : String} {t u : RuleTable} {v : Expr}
    (hnew : t.contains (itemName path) = false) (helem : Compiles settings element (itemName path) t v u)
    (hlim : Reversed lo hi settings.items → settings.clampArrayBounds = true) :
    Compiles settings (.array element lo hi name) path t
      (arrayExpr (itemName path) (clampedLimits lo hi settings.items).1
        (clampedLimits lo hi settings.items).2)
      (if v = .rule (itemName path) then u else u.ensure (itemName path) v)
  | object {name path : String} {fields : List (Field Shape)} {t t' : RuleTable} {keys : List String}
    (h : CompilesFields settings fields path [] t keys t') :
    Compiles settings (.object name fields) path t (objectExpr keys) t'

/-- A run over fields that gives the names of their rules. -/
inductive CompilesFields (settings : GrammarSettings) :
    List (Field Shape) → String → List String → RuleTable → List String → RuleTable → Prop
  | nil {path : String} {used : List String} {t : RuleTable} : CompilesFields settings [] path used t [] t
  | cons {f : Field Shape} {rest : List (Field Shape)} {path : String} {used keys : List String}
    {t u t' : RuleTable} {v : Expr}
    (hvalue : Compiles settings f.type (fieldPath t used path f.name) t v u)
    (hkey : u.contains (keyName (fieldPath t used path f.name)) = false)
    (hrest : CompilesFields settings rest path (fieldPath t used path f.name :: used)
      (u.push (keyName (fieldPath t used path f.name)) (fieldExpr f.name v)) keys t') :
    CompilesFields settings (f :: rest) path used t (keyName (fieldPath t used path f.name) :: keys) t'

end

mutual

/-- A run that ends in an error. -/
inductive Fails (settings : GrammarSettings) : Shape → String → RuleTable → GrammarError → Prop
  | format {text : StringShape} {path : String} {t : RuleTable} {f : StringFormat} {e : GrammarError}
    (hf : text.activeFormat? = some f) (h : f.compile settings = .error e) :
    Fails settings (.string text) path t e
  | element {element : Shape} {lo hi : Option Nat} {name path : String} {t : RuleTable} {e : GrammarError}
    (hnew : t.contains (itemName path) = false) (h : Fails settings element (itemName path) t e) :
    Fails settings (.array element lo hi name) path t e
  | limits {element : Shape} {lo hi : Option Nat} {name path : String} {t : RuleTable}
    (hrev : Reversed lo hi settings.items) (hclamp : settings.clampArrayBounds = false) :
    Fails settings (.array element lo hi name) path t
      (.reversedItems path (effectiveLimits lo hi settings.items).1 (effectiveLimits lo hi settings.items).2)
  | fields {name path : String} {fields : List (Field Shape)} {t : RuleTable} {e : GrammarError}
    (h : FailsFields settings fields path [] t e) : Fails settings (.object name fields) path t e
  | custom {kind path : String} {t : RuleTable} : Fails settings (.custom kind) path t (.unknownKind kind)

/-- A run over fields that ends in an error. -/
inductive FailsFields (settings : GrammarSettings) :
    List (Field Shape) → String → List String → RuleTable → GrammarError → Prop
  | value {f : Field Shape} {rest : List (Field Shape)} {path : String} {used : List String} {t : RuleTable}
    {e : GrammarError} (h : Fails settings f.type (fieldPath t used path f.name) t e) :
    FailsFields settings (f :: rest) path used t e
  /-- The value has taken the name of the field's own rule. -/
  | key {f : Field Shape} {rest : List (Field Shape)} {path : String} {used : List String}
    {t t₁ : RuleTable} {value : Expr}
    (hvalue : Compiles settings f.type (fieldPath t used path f.name) t value t₁)
    (hkey : t₁.contains (keyName (fieldPath t used path f.name)) = true) :
    FailsFields settings (f :: rest) path used t (.duplicateRule (keyName (fieldPath t used path f.name)))
  | rest {f : Field Shape} {rest : List (Field Shape)} {path : String} {used : List String}
    {t t₁ : RuleTable} {value : Expr} {e : GrammarError}
    (hvalue : Compiles settings f.type (fieldPath t used path f.name) t value t₁)
    (hkey : t₁.contains (keyName (fieldPath t used path f.name)) = false)
    (h : FailsFields settings rest path (fieldPath t used path f.name :: used)
      (t₁.push (keyName (fieldPath t used path f.name)) (fieldExpr f.name value)) e) :
    FailsFields settings (f :: rest) path used t e

end

/-! ### Steps -/

namespace Compiling
variable {α β : Type}

/-- What a step gives, and what it has made. -/
abbrev exec (x : Compiling α) (p : Progress) : Except GrammarError α × Progress := x.run.run p

theorem exec_pure (a : α) (p : Progress) : (pure a : Compiling α).exec p = (.ok a, p) := rfl

theorem exec_throw (e : GrammarError) (p : Progress) : (throw e : Compiling α).exec p = (.error e, p) := rfl

theorem exec_get (p : Progress) : (get : Compiling Progress).exec p = (.ok p, p) := rfl

theorem exec_note (ns : List Notice) (p : Progress) :
    (note ns).exec p = (.ok (), { p with notices := p.notices ++ ns }) := rfl

theorem exec_hasRule (name : String) (p : Progress) :
    (hasRule name).exec p = (.ok (p.table.contains name), p) := rfl

theorem exec_bind (x : Compiling α) (f : α → Compiling β) (p : Progress) :
    (x >>= f).exec p = match x.exec p with
      | (.ok a, q) => (f a).exec q
      | (.error e, q) => (.error e, q) := by
  simp only [exec, bind, ExceptT.bind, ExceptT.bindCont, ExceptT.mk, ExceptT.run, StateT.run, StateT.bind]
  cases x p with
  | mk r q => cases r <;> rfl

theorem exec_addRule (name : String) (body : Expr) (p : Progress) :
    (addRule name body).exec p =
      if p.table.contains name then (.error (.duplicateRule name), p)
      else (.ok (), { p with table := p.table.push name body }) := by
  simp only [addRule, exec_bind, exec_get, RuleTable.insert?]
  cases p.table.contains name <;> rfl

/-- A rule that was there already is kept; that there is one afterwards is all that matters. -/
theorem exec_ensureRule (name : String) (body : Expr) (p : Progress) :
    ∃ ns, (ensureRule name body).exec p = (.ok (.rule name), ⟨p.table.ensure name body, ns⟩) := by
  simp only [ensureRule, exec_bind, exec_hasRule, RuleTable.ensure]
  cases h : p.table.contains name with
  | true => exact ⟨p.notices, rfl⟩
  | false =>
    refine ⟨p.notices ++ [.registeringRule name], ?_⟩
    simp only [Bool.false_eq_true, ↓reduceIte, exec_bind, exec_note, exec_addRule, h, exec_pure]

end Compiling

/-! ### The compiler and the relations -/

/-- How a step ends: with a value and a table that are as `ok` says, or with an error as `bad` says. -/
def Ended {α : Type} (r : Except GrammarError α × Progress) (ok : α → RuleTable → Prop)
    (bad : GrammarError → Prop) : Prop :=
  match r with
  | (.ok a, q) => ok a q.table
  | (.error e, _) => bad e

namespace Ended
variable {α β : Type} {p : Progress} {ok : β → RuleTable → Prop} {bad : GrammarError → Prop}

theorem bind {x : Compiling α} {f : α → Compiling β} {okx : α → RuleTable → Prop}
    {badx : GrammarError → Prop} (hx : Ended (x.exec p) okx badx) (hbad : ∀ e, badx e → bad e)
    (hf : ∀ a q, okx a q.table → Ended ((f a).exec q) ok bad) : Ended ((x >>= f).exec p) ok bad := by
  rw [exec_bind]
  match h : x.exec p with
  | (.ok a, q) => rw [h] at hx; exact hf a q hx
  | (.error e, q) => rw [h] at hx; exact hbad e hx

theorem mono {r : Except GrammarError β × Progress} {ok' : β → RuleTable → Prop} {bad' : GrammarError → Prop}
    (h : Ended r ok bad) (hok : ∀ b t, ok b t → ok' b t) (hbad : ∀ e, bad e → bad' e) :
    Ended r ok' bad' := by
  match r with
  | (.ok b, q) => exact hok b q.table h
  | (.error e, q) => exact hbad e h

end Ended

variable {settings : GrammarSettings}

theorem ensureRule_ended (name : String) (body : Expr) (p : Progress) :
    Ended ((ensureRule name body).exec p) (fun e t => e = .rule name ∧ t = p.table.ensure name body)
      fun _ => False := by
  obtain ⟨ns, h⟩ := exec_ensureRule name body p
  rw [h]
  exact ⟨rfl, rfl⟩

theorem clampedLimits_of_reversed {lo hi : Option Nat} {default : Limits} (h : Reversed lo hi default) :
    clampedLimits lo hi default =
      ((effectiveLimits lo hi default).2, (effectiveLimits lo hi default).2) :=
  congrArg (·, _) (Nat.min_eq_right (Nat.le_of_lt h))

theorem clampedLimits_of_not_reversed {lo hi : Option Nat} {default : Limits} (h : ¬ Reversed lo hi default) :
    clampedLimits lo hi default = effectiveLimits lo hi default :=
  congrArg (·, _) (Nat.min_eq_left (Nat.not_lt.mp h))

theorem arrayLimits_ended (lo hi : Option Nat) (path : String) (p : Progress) :
    Ended ((arrayLimits settings lo hi path).exec p)
      (fun r t => r = clampedLimits lo hi settings.items ∧ t = p.table ∧
        (Reversed lo hi settings.items → settings.clampArrayBounds = true))
      fun e => Reversed lo hi settings.items ∧ settings.clampArrayBounds = false ∧
        e = .reversedItems path (effectiveLimits lo hi settings.items).1
          (effectiveLimits lo hi settings.items).2 := by
  rw [arrayLimits]
  by_cases hrev : Reversed lo hi settings.items
  · have hlt : (effectiveLimits lo hi settings.items).2 < (effectiveLimits lo hi settings.items).1 := hrev
    by_cases hc : settings.clampArrayBounds = true
    · simp only [hlt, hc, ↓reduceIte, Bool.not_true, Bool.false_eq_true, exec_bind, exec_note, exec_pure]
      exact ⟨(clampedLimits_of_reversed hrev).symm, rfl, fun _ => trivial⟩
    · have hc : settings.clampArrayBounds = false := Bool.eq_false_iff.mpr hc
      simp only [hlt, hc, ↓reduceIte, Bool.not_false, exec_bind, exec_throw]
      exact ⟨hrev, trivial, rfl⟩
  · have hlt : ¬ (effectiveLimits lo hi settings.items).2 < (effectiveLimits lo hi settings.items).1 := hrev
    simp only [hlt, ↓reduceIte, exec_pure]
    exact ⟨(clampedLimits_of_not_reversed hrev).symm, rfl, fun h => absurd h hrev⟩

/-! ### Strings -/

namespace StringShape
variable {text : StringShape} {path : String} {p : Progress}

theorem compileString_values (h : text.allowed ≠ []) :
    compileString settings text path = ensureRule path (.anyText text.allowed) := by
  rw [compileString, if_pos h]

/-- A text has allowed values, or a format, or only bounds. -/
theorem cases (text : StringShape) : text.allowed ≠ [] ∨ text.Plain ∨ ∃ f, text.activeFormat? = some f := by
  by_cases hv : text.allowed ≠ []
  · exact .inl hv
  match hf : text.activeFormat? with
  | none => exact .inr (.inl ⟨Decidable.not_not.mp hv, hf⟩)
  | some f => exact .inr (.inr ⟨f, rfl⟩)

theorem compileString_plain {lo hi : Nat} (h : text.Plain)
    (hlimits : effectiveLimits text.minLength text.maxLength settings.lengths = (lo, hi)) :
    compileString settings text path =
      if hi < lo then (do
        note [.lengthClamped path lo hi]
        return boundedStringExpr hi hi)
      else return boundedStringExpr lo hi := by
  have hv : ¬ text.allowed ≠ [] := fun hne => hne h.1
  have hf := h.2
  rw [activeFormat?, if_neg hv] at hf
  rw [compileString, if_neg hv]
  split at hf
  · next hnone => rw [hnone, hlimits]
  · next hempty => simp only [hempty, hlimits]
  · cases hf

theorem exec_compileString_plain (settings : GrammarSettings) (path : String) (p : Progress) (h : text.Plain) :
    ∃ ns, (compileString settings text path).exec p =
      (.ok (boundedStringExpr (clampedLimits text.minLength text.maxLength settings.lengths).1
        (clampedLimits text.minLength text.maxLength settings.lengths).2), ⟨p.table, ns⟩) := by
  obtain ⟨lo, hi, hlimits⟩ : ∃ lo hi, effectiveLimits text.minLength text.maxLength settings.lengths = (lo, hi) := ⟨_, _, rfl⟩
  rw [compileString_plain h hlimits]
  by_cases hlt : hi < lo
  · have hrev : Reversed text.minLength text.maxLength settings.lengths := by
      rw [Reversed, hlimits]
      exact hlt
    rw [if_pos hlt, clampedLimits_of_reversed hrev, hlimits]
    exact ⟨_, rfl⟩
  · have hrev : ¬ Reversed text.minLength text.maxLength settings.lengths := by
      rw [Reversed, hlimits]
      exact hlt
    rw [if_neg hlt, clampedLimits_of_not_reversed hrev, hlimits]
    exact ⟨_, rfl⟩

theorem compileString_format {f : StringFormat} (h : text.activeFormat? = some f) :
    compileString settings text path = (do
      let (body, ns) ← (f.compile settings : Except GrammarError (Expr × List Notice))
      note ns
      ensureRule path body) := by
  rw [activeFormat?] at h
  by_cases hv : text.allowed ≠ []
  · rw [if_pos hv] at h; cases h
  rw [if_neg hv] at h
  rw [compileString, if_neg hv]
  split at h
  · cases h
  · cases h
  · next format hne hfmt =>
    cases h
    rw [hfmt]
    split
    · next heq => cases heq; exact absurd rfl hne
    · next heq => cases heq
    · next heq => cases heq; rfl

/-- The case of a string: allowed values first, then the format, then the bounds. -/
theorem compileString_ended :
    Ended ((compileString settings text path).exec p) (Compiles settings (.string text) path p.table)
      (Fails settings (.string text) path p.table) := by
  rcases text.cases with hv | hplain | ⟨f, hf⟩
  · rw [compileString_values hv]
    refine (ensureRule_ended path _ p).mono (fun e t h => ?_) fun _ h => h.elim
    rw [h.1, h.2]
    exact .namedString (.values hv)
  · obtain ⟨ns, h⟩ := exec_compileString_plain settings path p hplain
    rw [h]
    exact .plainString hplain
  · rw [compileString_format hf]
    match hc : f.compile settings with
    | .error e => exact .format hf hc
    | .ok (body, ns) =>
      refine (ensureRule_ended path body { p with notices := p.notices ++ ns }).mono (fun e t h => ?_) fun _ h => h.elim
      rw [h.1, h.2]
      exact .namedString (.format hf hc)

end StringShape

/-! ### Shapes -/

mutual

theorem compileShape_ended : ∀ (s : Shape) (path : String) (p : Progress),
    Ended ((compileShape settings s path).exec p) (Compiles settings s path p.table)
      (Fails settings s path p.table)
  | .string text, path, p => by
    rw [compileShape]
    exact StringShape.compileString_ended
  | .scalar kind _, path, p => by
    rw [compileShape]
    exact .scalar
  | .enum _ values, path, p => by
    rw [compileShape]
    exact .enum
  | .custom kind, path, p => by
    rw [compileShape]
    exact .custom
  | .array element lo hi name, path, p => by
    have hbounds : ∀ q : Progress, Ended
        (exec (do
          let (min, max) ← arrayLimits settings lo hi path
          return arrayExpr (itemName path) min max) q)
        (fun e t => e = arrayExpr (itemName path) (clampedLimits lo hi settings.items).1
            (clampedLimits lo hi settings.items).2 ∧ t = q.table ∧
          (Reversed lo hi settings.items → settings.clampArrayBounds = true))
        (Fails settings (.array element lo hi name) path p.table) := fun q =>
      (arrayLimits_ended lo hi path q).bind (fun e h => h.2.2 ▸ .limits h.1 h.2.1)
        fun r q' h => ⟨by rw [← h.1], h.2.1, h.2.2⟩
    rw [compileShape, exec_bind, exec_hasRule]
    by_cases hold : p.table.contains (itemName path) = true
    -- a rule is there: the element is not compiled
    · simp only [hold, ↓reduceIte]
      refine (hbounds p).mono (fun e t h => ?_) fun _ h => h
      rw [h.1, h.2.1]
      exact .sharedArray hold h.2.2
    have hnew : p.table.contains (itemName path) = false := Bool.eq_false_iff.mpr hold
    simp only [hold]
    refine (compileShape_ended element (itemName path) p).bind (fun _ h => .element hnew h)
      fun value q helem => ?_
    by_cases hvalue : value = .rule (itemName path)
    -- the element is a string that has made the rule itself
    · simp only [hvalue, ne_eq, not_true_eq_false, ↓reduceIte]
      refine (hbounds q).mono (fun e t h => ?_) fun _ h => h
      have hc : Compiles settings (.array element lo hi name) path p.table _ _ := .array hnew helem h.2.2
      rw [if_pos hvalue] at hc
      rw [h.1, h.2.1]
      exact hc
    · simp only [hvalue, ne_eq, not_false_eq_true, ↓reduceIte]
      refine (ensureRule_ended (itemName path) value q).bind (fun _ h => h.elim) fun _ q' hq' => ?_
      refine (hbounds q').mono (fun e t h => ?_) fun _ h => h
      have hc : Compiles settings (.array element lo hi name) path p.table _ _ := .array hnew helem h.2.2
      rw [if_neg hvalue, ← hq'.2] at hc
      rw [h.1, h.2.1]
      exact hc
  | .object name fields, path, p => by
    rw [compileShape]
    exact (compileFields_ended fields path [] p).bind (fun _ h => .fields h) fun keys q h => .object h

theorem compileFields_ended : ∀ (fields : List (Field Shape)) (path : String) (used : List String) (p : Progress),
    Ended ((compileFields settings fields path used).exec p) (CompilesFields settings fields path used p.table)
      (FailsFields settings fields path used p.table)
  | [], path, used, p => by
    rw [compileFields]
    exact .nil
  | ⟨name, type, description⟩ :: rest, path, used, p => by
    rw [compileFields, exec_bind, exec_get]
    refine (compileShape_ended type (fieldPath p.table used path name) p).bind (fun _ h => .value h)
      fun value q hvalue => ?_
    rw [exec_bind, exec_addRule]
    by_cases hkey : q.table.contains (keyName (fieldPath p.table used path name)) = true
    · rw [if_pos hkey]
      exact .key hvalue hkey
    rw [if_neg hkey]
    have hkey : q.table.contains (keyName (fieldPath p.table used path name)) = false :=
      Bool.eq_false_iff.mpr hkey
    exact (compileFields_ended rest path (fieldPath p.table used path name :: used) _).bind
      (fun _ h => .rest hvalue hkey h) fun keys _ h => .cons hvalue hkey h

end

/-! ### The relations are exact -/

theorem exec_bind_ok {α β : Type} {x : Compiling α} {f : α → Compiling β} {p q : Progress} {a : α}
    (h : x.exec p = (.ok a, q)) : (x >>= f).exec p = (f a).exec q := by
  rw [exec_bind, h]

theorem exec_arrayLimits {lo hi : Option Nat} (path : String)
    (h : Reversed lo hi settings.items → settings.clampArrayBounds = true) (p : Progress) :
    ∃ ns, (arrayLimits settings lo hi path).exec p = (.ok (clampedLimits lo hi settings.items), ⟨p.table, ns⟩) := by
  have hend := @arrayLimits_ended settings lo hi path p
  match hr : (arrayLimits settings lo hi path).exec p with
  | (.ok r, q) =>
    rw [hr] at hend
    obtain ⟨rfl, ht, -⟩ := hend
    exact ⟨q.notices, by rw [← ht]⟩
  | (.error e, q) =>
    rw [hr] at hend
    obtain ⟨hrev, hclamp, -⟩ := hend
    rw [h hrev] at hclamp
    cases hclamp

theorem StringShape.RuleBody.exec_eq {text : StringShape} {body : Expr} (h : text.RuleBody settings body)
    (path : String) (p : Progress) :
    ∃ ns, (compileString settings text path).exec p = (.ok (.rule path), ⟨p.table.ensure path body, ns⟩) := by
  cases h with
  | values h =>
    rw [compileString_values h]
    exact exec_ensureRule path _ p
  | @format f body ns hf h =>
    rw [compileString_format hf, h]
    exact exec_ensureRule path body { p with notices := p.notices ++ ns }

mutual

theorem Compiles.exec_eq : ∀ {s : Shape} {path : String} {t t' : RuleTable} {e : Expr},
    Compiles settings s path t e t' → ∀ ns, ∃ ns', (compileShape settings s path).exec ⟨t, ns⟩ = (.ok e, ⟨t', ns'⟩)
  | _, _, _, _, _, .namedString h, ns => by
    rw [compileShape]
    exact h.exec_eq _ ⟨_, ns⟩
  | _, _, _, _, _, .plainString h, ns => by
    rw [compileShape]
    exact StringShape.exec_compileString_plain settings _ _ h
  | _, _, _, _, _, .scalar, ns => ⟨ns, by rw [compileShape]; rfl⟩
  | _, _, _, _, _, .enum, ns => ⟨ns, by rw [compileShape]; rfl⟩
  | _, path, _, _, _, .sharedArray hold hlim, ns => by
    obtain ⟨ns', h⟩ := exec_arrayLimits path hlim ⟨_, ns⟩
    refine ⟨ns', ?_⟩
    rw [compileShape, exec_bind, exec_hasRule]
    simp only [hold, ↓reduceIte]
    rw [exec_bind_ok h]
    rfl
  | _, path, _, _, _, .array (u := t₁) (v := value) hnew helem hlim, ns => by
    obtain ⟨ns₁, h₁⟩ := helem.exec_eq ns
    rw [compileShape, exec_bind, exec_hasRule]
    simp only [hnew, Bool.false_eq_true, ↓reduceIte]
    rw [exec_bind_ok h₁]
    by_cases hvalue : value = .rule (itemName path)
    · obtain ⟨ns', h⟩ := exec_arrayLimits path hlim ⟨t₁, ns₁⟩
      refine ⟨ns', ?_⟩
      simp only [hvalue, ne_eq, not_true_eq_false, ↓reduceIte]
      rw [exec_bind_ok h]
      rfl
    · obtain ⟨ns₂, h₂⟩ := exec_ensureRule (itemName path) value ⟨t₁, ns₁⟩
      obtain ⟨ns', h⟩ := exec_arrayLimits path hlim ⟨t₁.ensure (itemName path) value, ns₂⟩
      refine ⟨ns', ?_⟩
      simp only [hvalue, ne_eq, not_false_eq_true, ↓reduceIte]
      rw [exec_bind_ok h₂, exec_bind_ok h]
      rfl
  | _, _, _, _, _, .object h, ns => by
    obtain ⟨ns', h⟩ := h.exec_eq ns
    refine ⟨ns', ?_⟩
    rw [compileShape, exec_bind_ok h]
    rfl

theorem CompilesFields.exec_eq : ∀ {fields : List (Field Shape)} {path : String} {used keys : List String}
    {t t' : RuleTable}, CompilesFields settings fields path used t keys t' →
    ∀ ns, ∃ ns', (compileFields settings fields path used).exec ⟨t, ns⟩ = (.ok keys, ⟨t', ns'⟩)
  | _, _, _, _, _, _, .nil, ns => ⟨ns, by rw [compileFields]; rfl⟩
  | ⟨_, _, _⟩ :: _, _, _, _, _, _, .cons hvalue hkey hrest, ns => by
    obtain ⟨ns₁, h₁⟩ := hvalue.exec_eq ns
    obtain ⟨ns', h⟩ := hrest.exec_eq ns₁
    refine ⟨ns', ?_⟩
    rw [compileFields, exec_bind, exec_get]
    simp only
    rw [exec_bind_ok h₁, exec_bind, exec_addRule]
    simp only [hkey, Bool.false_eq_true, ↓reduceIte]
    rw [exec_bind_ok h]
    rfl

end

theorem Compiles.det {s : Shape} {path : String} {t t₁ t₂ : RuleTable} {e₁ e₂ : Expr}
    (h₁ : Compiles settings s path t e₁ t₁) (h₂ : Compiles settings s path t e₂ t₂) : e₁ = e₂ ∧ t₁ = t₂ := by
  obtain ⟨ns₁, h₁⟩ := h₁.exec_eq []
  obtain ⟨ns₂, h₂⟩ := h₂.exec_eq []
  rw [h₁] at h₂
  cases h₂
  exact ⟨rfl, rfl⟩

end RecordGrammar
