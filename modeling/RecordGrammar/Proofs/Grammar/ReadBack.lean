import Mathlib
import RecordGrammar.Proofs.Grammar.Reading
import RecordGrammar.Proofs.Text.Split

/-!
# Expressions read back

`Expr.Readable`: alternatives, rows and parts of rows are nested as the text of the expression needs it, and its names and
classes are spelled properly. `readExpr_chars`: the text of such an expression is read back as the expression itself,
up to its blanks and the spelling of its classes (`Expr.canonical`). The steps of the reader are followed along the
expression; what the text of a part does to the frame is `Frame.add`.
-/

namespace RecordGrammar
open Reading

def ClassItem.canonical : ClassItem → ClassItem
  | .one c => .one { char := c.char }
  | .range first last => .range { char := first.char } { char := last.char }

def CharClass.canonical (k : CharClass) : CharClass where
  negated := k.negated
  items := k.items.map ClassItem.canonical

/-- A repetition that asks for no more than it allows. -/
def Times.InOrder : Times → Prop
  | .between min max => (min : Int) ≤ max
  | .optional | .some | .exactly _ => True

namespace Expr

/-- The expression with blanks between parts and with plain spelling in classes. -/
def canonical : Expr → Expr
  | empty => empty
  | literal s => literal s
  | cls k => cls k.canonical
  | rule name => rule name
  | seq _ a b => seq .spaced a.canonical b.canonical
  | alt _ a b => alt .spaced a.canonical b.canonical
  | group e => group e.canonical
  | repeated e times => repeated e.canonical times
  | raw s => raw s

end Expr

/-! ### Runs of the reader -/

namespace Reading

/-- Reading the characters strictly takes the first state to the second one. -/
def Runs (s : State) (cs : List Char) (s' : State) : Prop := cs.foldlM strictStep s = some s'

theorem step_of_strictStep {s s' : State} {c : Char} (h : strictStep s c = some s') : step s c = some s' := by
  rw [strictStep] at h
  split at h
  · split at h
    · exact h
    · cases h
  · exact h

namespace Runs
variable {s s₁ s' : State} {c : Char} {cs ds : List Char}

theorem nil : Runs s [] s := rfl

theorem cons (h : strictStep s c = some s₁) (h' : Runs s₁ cs s') : Runs s (c :: cs) s' := by
  rw [Runs, List.foldlM_cons, h]
  exact h'

theorem single (h : strictStep s c = some s') : Runs s [c] s' := cons h nil

theorem append (h : Runs s cs s₁) (h' : Runs s₁ ds s') : Runs s (cs ++ ds) s' := by
  rw [Runs, List.foldlM_append, h]
  exact h'

/-- What can be read strictly is read the same otherwise. -/
theorem lenient (h : Runs s cs s') : cs.foldlM step s = some s' := by
  induction cs generalizing s with
  | nil => exact h
  | cons c cs ih =>
    rw [Runs, List.foldlM_cons] at h
    obtain ⟨s₁, hstep, hrest⟩ := Option.bind_eq_some_iff.mp h
    rw [List.foldlM_cons, step_of_strictStep hstep]
    exact ih hrest

end Runs

/-- The state after a body's text, up to a name that may still go on. -/
def Reads (s : State) (cs : List Char) (f : Frame) : Prop :=
  ∃ s₁, Runs s cs s₁ ∧ s₁.endName = ⟨.between, f, s.outer⟩ ∧ (s₁.mode = .between ∨ ∃ read, s₁.mode = .name read)

namespace Reads
variable {s s' : State} {c : Char} {cs ds : List Char} {f g : Frame}

theorem of_runs (h : Runs s cs ⟨.between, f, s.outer⟩) : Reads s cs f := ⟨_, h, rfl, .inl rfl⟩

/-- A character that is none of a name ends the name that may be open. -/
theorem runs_cons (h : Reads s cs f) (hc : isNameChar c = false) (hs : begin ⟨.between, f, s.outer⟩ c = some s') :
    Runs s (cs ++ [c]) s' := by
  obtain ⟨s₁, hrun, hend, hmode⟩ := h
  refine hrun.append (.single ?_)
  rcases hmode with hmode | ⟨read, hmode⟩
  · have : s₁.endName = s₁ := by rw [State.endName, hmode]
    rw [← hend, this] at hs
    simp only [strictStep, step, hmode]
    exact hs
  · simp only [strictStep, step, hmode, hc, Bool.false_eq_true, ↓reduceIte, hend]
    exact hs

theorem prepend (h : Runs s cs ⟨.between, g, s.outer⟩) (h' : Reads ⟨.between, g, s.outer⟩ ds f) : Reads s (cs ++ ds) f := by
  obtain ⟨s₁, hrun, hend, hmode⟩ := h'
  exact ⟨s₁, h.append hrun, hend, hmode⟩

end Reads

variable {f : Frame} {o : List Frame}

/-! ### Literals, names and numbers -/

theorem runs_literalChars (read cs : List Char) :
    Runs ⟨.literal read, f, o⟩ (cs.flatMap escapeInLiteral) ⟨.literal (read ++ cs), f, o⟩ := by
  induction cs generalizing read with
  | nil =>
    rw [List.append_nil]
    exact .nil
  | cons c cs ih =>
    have hchar : Runs ⟨.literal read, f, o⟩ (escapeInLiteral c) ⟨.literal (read ++ [c]), f, o⟩ := by
      rw [escapeInLiteral]
      split_ifs with h₁ h₂ h₃ h₄ h₅
      · subst h₁; rfl
      · subst h₂; rfl
      · subst h₃; rfl
      · subst h₄; rfl
      · subst h₅; rfl
      · refine .single ?_
        simp only [strictStep, step, h₂, h₁, ↓reduceIte]
    rw [List.flatMap_cons]
    refine hchar.append ?_
    have := ih (read ++ [c])
    rwa [List.append_assoc, List.singleton_append] at this

theorem runs_literal (s : String) :
    Runs ⟨.between, f, o⟩ (literalText s.toList) ⟨.between, { f with row := f.row ++ [.literal s] }, o⟩ := by
  refine .cons (show begin _ '"' = some ⟨.literal [], f, o⟩ from rfl) ?_
  refine (runs_literalChars [] s.toList).append (.single ?_)
  simp [strictStep, step, State.emit]

theorem begin_of_isNameChar {c : Char} (h : isNameChar c = true) (s : State) :
    begin s c = some { s with mode := .name [c] } := by
  unfold begin
  split
  all_goals first | rfl | (exfalso; revert h; decide) | skip
  rw [if_pos h]

theorem runs_nameChars (read : List Char) {cs : List Char} (h : ∀ c ∈ cs, isNameChar c = true) :
    Runs ⟨.name read, f, o⟩ cs ⟨.name (read ++ cs), f, o⟩ := by
  induction cs generalizing read with
  | nil =>
    rw [List.append_nil]
    exact .nil
  | cons c cs ih =>
    have hrest := ih (read ++ [c]) fun d hd => h d (List.mem_cons_of_mem c hd)
    rw [List.append_assoc, List.singleton_append] at hrest
    refine .cons ?_ hrest
    simp only [strictStep, step, h c List.mem_cons_self, ↓reduceIte]

theorem reads_name {name : String} (hne : name.toList ≠ []) (h : ∀ c ∈ name.toList, isNameChar c = true) :
    Reads ⟨.between, f, o⟩ name.toList { f with row := f.row ++ [.rule name] } := by
  obtain ⟨c, cs, hcs⟩ := List.exists_cons_of_ne_nil hne
  rw [hcs] at h ⊢
  refine ⟨⟨.name (c :: cs), f, o⟩, ?_, ?_, .inr ⟨_, rfl⟩⟩
  · exact .cons (begin_of_isNameChar (h c List.mem_cons_self) _)
      (runs_nameChars [c] fun d hd => h d (List.mem_cons_of_mem c hd))
  · rw [← hcs]
    simp [State.endName, State.emit]

theorem addDigit?_of_isDigit {c : Char} (h : c.isDigit = true) (n : Option Nat) :
    addDigit? n c = some (10 * n.getD 0 + (c.toNat - 0x30)) := by
  rw [addDigit?, if_pos h]

theorem runs_digits {ds : List Char} (hne : ds ≠ []) (h : ∀ c ∈ ds, c.isDigit = true) (n : Option Nat) {m : Option Nat → Mode}
    (hm : ∀ r c, c.isDigit = true → strictStep ⟨m r, f, o⟩ c = (addDigit? r c).map fun k => ⟨m (some k), f, o⟩) :
    Runs ⟨m n, f, o⟩ ds ⟨m (some (Nat.ofDigitChars 10 ds (n.getD 0))), f, o⟩ := by
  induction ds generalizing n with
  | nil => exact absurd rfl hne
  | cons c ds ih =>
    have hc := h c List.mem_cons_self
    have hstep : strictStep ⟨m n, f, o⟩ c = some ⟨m (some (10 * n.getD 0 + (c.toNat - 0x30))), f, o⟩ := by
      rw [hm n c hc, addDigit?_of_isDigit hc]
      rfl
    rw [Nat.ofDigitChars_cons]
    refine .cons hstep ?_
    cases ds with
    | nil => exact .nil
    | cons d ds => exact ih (List.cons_ne_nil d ds) (fun d hd => h d (List.mem_cons_of_mem c hd)) _

theorem toString_toList_ne_nil (n : Nat) : (toString n).toList ≠ [] := by
  rw [Nat.toString_eq_repr, Nat.toList_repr]
  exact Nat.toDigits_ne_nil

theorem isDigit_of_mem_toString {n : Nat} {c : Char} (h : c ∈ (toString n).toList) : c.isDigit = true := by
  rw [Nat.toString_eq_repr, Nat.toList_repr] at h
  exact Nat.isDigit_of_mem_toDigits (by decide) (by decide) h

theorem ofDigitChars_toString (n : Nat) : Nat.ofDigitChars 10 (toString n).toList 0 = n := by
  rw [Nat.toString_eq_repr, Nat.toList_repr, Nat.ofDigitChars_ten_toDigits]

theorem ne_brace_of_isDigit {c : Char} (h : c.isDigit = true) : c ≠ '\x7d' ∧ c ≠ ',' := by
  refine ⟨?_, ?_⟩ <;> rintro rfl <;> revert h <;> decide

theorem runs_count (n : Nat) : Runs ⟨.count none, f, o⟩ (toString n).toList ⟨.count (some n), f, o⟩ := by
  have h := runs_digits (f := f) (o := o) (toString_toList_ne_nil n) (fun c => isDigit_of_mem_toString) none (m := Mode.count)
    fun r c hc => by
      have hne := ne_brace_of_isDigit hc
      cases r <;> simp [strictStep, step, hne.1, hne.2]
  rwa [Option.getD_none, ofDigitChars_toString] at h

theorem runs_countTo (k n : Nat) : Runs ⟨.countTo k none, f, o⟩ (toString n).toList ⟨.countTo k (some n), f, o⟩ := by
  have h := runs_digits (f := f) (o := o) (toString_toList_ne_nil n) (fun c => isDigit_of_mem_toString) none (m := Mode.countTo k)
    fun r c hc => by
      have hne := ne_brace_of_isDigit hc
      cases r <;> simp [strictStep, step, hne.1]
  rwa [Option.getD_none, ofDigitChars_toString] at h

theorem runs_times {cs : List Char} {e : Expr} {row : List Expr} {times : Times} {s : State} (ht : times.InOrder)
    (h : Reads s cs { f with row := row ++ [e] }) :
    Runs s (cs ++ times.chars) ⟨.between, { f with row := row ++ [.repeated e times] }, s.outer⟩ := by
  have hlast : ∀ t, (State.repeatLast ⟨.between, { f with row := row ++ [e] }, s.outer⟩ t) =
      some ⟨.between, { f with row := row ++ [.repeated e t] }, s.outer⟩ := fun t => by
    simp [State.repeatLast]
  have hlast' : ∀ t m, (State.repeatLast ⟨m, { f with row := row ++ [e] }, s.outer⟩ t) =
      some ⟨.between, { f with row := row ++ [.repeated e t] }, s.outer⟩ := fun t m => by
    simp [State.repeatLast]
  cases times with
  | optional => exact h.runs_cons (by decide) (hlast _)
  | some => exact h.runs_cons (by decide) (hlast _)
  | exactly n =>
    have hopen := h.runs_cons (c := '\x7b') (by decide) rfl
    have := (hopen.append (runs_count n)).append (.single (show strictStep _ '\x7d' = some _ from hlast' (.exactly n) (.count (some n))))
    simpa [Times.chars] using this
  | between min max =>
    obtain ⟨max, rfl⟩ := Int.eq_ofNat_of_zero_le ((Int.natCast_nonneg min).trans ht)
    have hopen := h.runs_cons (c := '\x7b') (by decide) rfl
    have hcomma := (hopen.append (runs_count min)).append
      (.single (show strictStep _ ',' = some ⟨.countTo min none, _, s.outer⟩ from rfl))
    have hclose := (hcomma.append (runs_countTo min max)).append
      (.single (show strictStep _ '\x7d' = some _ from hlast' (.between min max) (.countTo min (some max))))
    have hmax : toString (max : Int) = toString max := rfl
    rw [Times.chars, hmax]
    simpa using hclose

/-! ### Classes -/

theorem hexValue?_upperHexDigit : ∀ n : Fin 16, Text.hexValue? (upperHexDigit n) = some n.val := by decide

theorem upperHexDigit_ne_break : ∀ n : Fin 16, upperHexDigit n ≠ '\n' := by decide

end Reading

/-- The spelling of a character in a class that every reader takes for the character. -/
def ClassChar.IsPlain (c : ClassChar) : Prop := c.spelling = .escaped ∨ (c.spelling = .code ∧ c.char.toNat < 256)

/-- A member of a class that is spelled properly. -/
def ClassItem.IsPlain : ClassItem → Prop
  | .one c => c.IsPlain
  | .range first last => first.IsPlain ∧ last.IsPlain

namespace Reading
variable {f : Frame} {o : List Frame}

theorem runs_escapeInClass (k : ClassPart) (c : Char) :
    Runs ⟨.cls k, f, o⟩ (escapeInClass c) ⟨.cls (k.put c), f, o⟩ := by
  simp only [escapeInClass, Bool.or_eq_true, decide_eq_true_eq]
  split_ifs with h₁ h₂ h₃
  · have hescape : strictStep ⟨.cls k, f, o⟩ '\\' = some ⟨.classEscape k, f, o⟩ := rfl
    refine .cons hescape (.single ?_)
    rcases h₁ with ((rfl | rfl) | rfl) | rfl <;> rfl
  · subst h₂; rfl
  · subst h₃; rfl
  · refine .single ?_
    simp only [not_or] at h₁
    simp only [strictStep, step, h₁, false_and, ↓reduceIte]

theorem runs_classChar (k : ClassPart) {c : ClassChar} (h : c.IsPlain) :
    Runs ⟨.cls k, f, o⟩ c.chars ⟨.cls (k.put c.char), f, o⟩ := by
  obtain ⟨c, spelling⟩ := c
  rcases h with h | ⟨h, hc⟩ <;> subst h
  · exact runs_escapeInClass k c
  · have hhigh := hexValue?_upperHexDigit ⟨c.toNat / 16, Nat.div_lt_of_lt_mul hc⟩
    have hlow := hexValue?_upperHexDigit ⟨c.toNat % 16, Nat.mod_lt _ (by omega)⟩
    simp only at hhigh hlow
    have hmark : strictStep ⟨.cls k, f, o⟩ '\\' = some ⟨.classEscape k, f, o⟩ := rfl
    have hcode : strictStep ⟨.classEscape k, f, o⟩ 'x' = some ⟨.classCode k, f, o⟩ := rfl
    refine .cons hmark (.cons hcode (.cons (by simp only [strictStep, step, hhigh]; rfl) (.single ?_)))
    simp only [strictStep, step, hlow, Option.map_some, Nat.div_add_mod, Char.ofNat_toNat]

/-- What has been read of a class ends in no dash. -/
def ClassPart.Open (k : ClassPart) : Prop := ∀ a, k.pending ≠ .dash a

theorem ClassPart.allItems_put {k : ClassPart} (h : k.Open) (c : Char) :
    (k.put c).allItems = k.allItems ++ [.one { char := c }] ∧ (k.put c).negated = k.negated ∧ (k.put c).pending = .char c := by
  obtain ⟨negated, items, pending⟩ := k
  cases pending with
  | none => exact ⟨rfl, rfl, rfl⟩
  | char a => exact ⟨rfl, rfl, rfl⟩
  | dash a => exact absurd rfl (h a)

theorem runs_classItem {k : ClassPart} (hk : k.Open) {i : ClassItem} (h : i.IsPlain) :
    ∃ k' : ClassPart, Runs ⟨.cls k, f, o⟩ i.chars ⟨.cls k', f, o⟩ ∧ k'.negated = k.negated ∧
      k'.allItems = k.allItems ++ [i.canonical] ∧ k'.Open := by
  cases i with
  | one c =>
    obtain ⟨hitems, hneg, hpend⟩ := ClassPart.allItems_put hk c.char
    refine ⟨k.put c.char, runs_classChar k h, hneg, hitems, fun a ha => ?_⟩
    rw [hpend] at ha
    cases ha
  | range a b =>
    obtain ⟨negated, items, pending⟩ := k
    have hfirst := runs_classChar (f := f) (o := o) ⟨negated, items, pending⟩ h.1
    cases pending with
    | dash a => exact absurd rfl (hk a)
    | none =>
      have hdash : strictStep ⟨.cls ⟨negated, items, .char a.char⟩, f, o⟩ '-' = some ⟨.cls ⟨negated, items, .dash a.char⟩, f, o⟩ := rfl
      exact ⟨_, hfirst.append (.cons hdash (runs_classChar _ h.2)), rfl, rfl, nofun⟩
    | char c =>
      have hdash : strictStep ⟨.cls ⟨negated, items ++ [.one { char := c }], .char a.char⟩, f, o⟩ '-' =
          some ⟨.cls ⟨negated, items ++ [.one { char := c }], .dash a.char⟩, f, o⟩ := rfl
      exact ⟨_, hfirst.append (.cons hdash (runs_classChar _ h.2)), rfl, rfl, nofun⟩

theorem runs_classItems {k : ClassPart} (hk : k.Open) {is : List ClassItem} (h : ∀ i ∈ is, i.IsPlain) :
    ∃ k' : ClassPart, Runs ⟨.cls k, f, o⟩ (is.flatMap ClassItem.chars) ⟨.cls k', f, o⟩ ∧ k'.negated = k.negated ∧
      k'.allItems = k.allItems ++ is.map ClassItem.canonical := by
  induction is generalizing k with
  | nil => exact ⟨k, .nil, rfl, (List.append_nil _).symm⟩
  | cons i is ih =>
    obtain ⟨k₁, hrun₁, hneg₁, hitems₁, hopen₁⟩ := runs_classItem (f := f) (o := o) hk (h i List.mem_cons_self)
    obtain ⟨k₂, hrun₂, hneg₂, hitems₂⟩ := ih hopen₁ fun j hj => h j (List.mem_cons_of_mem i hj)
    refine ⟨k₂, ?_, hneg₂.trans hneg₁, ?_⟩
    · rw [List.flatMap_cons]
      exact hrun₁.append hrun₂
    · rw [hitems₂, hitems₁, List.append_assoc, List.map_cons, List.singleton_append]

end Reading

/-- The text of the class is on one line and is read back as the class. -/
structure CharClass.ReadsBack (k : CharClass) : Prop where
  not_break : '\n' ∉ k.chars
  runs : ∀ f o, Runs ⟨.between, f, o⟩ k.chars ⟨.between, { f with row := f.row ++ [.cls k.canonical] }, o⟩

theorem break_not_mem_escapeInClass (c : Char) : '\n' ∉ escapeInClass c := by
  simp only [escapeInClass, Bool.or_eq_true, decide_eq_true_eq]
  split_ifs with h₁ h₂ h₃
  · rcases h₁ with ((rfl | rfl) | rfl) | rfl <;> decide
  · decide
  · decide
  · simpa using Ne.symm h₂

theorem ClassChar.IsPlain.not_break {c : ClassChar} (h : c.IsPlain) : '\n' ∉ c.chars := by
  obtain ⟨c, spelling⟩ := c
  rcases h with h | ⟨h, hc⟩ <;> subst h
  · exact break_not_mem_escapeInClass c
  · have hhigh := upperHexDigit_ne_break ⟨c.toNat / 16, Nat.div_lt_of_lt_mul hc⟩
    have hlow := upperHexDigit_ne_break ⟨c.toNat % 16, Nat.mod_lt _ (by omega)⟩
    simp [ClassChar.chars, Ne.symm hhigh, Ne.symm hlow]

theorem ClassItem.IsPlain.not_break {i : ClassItem} (h : i.IsPlain) : '\n' ∉ i.chars := by
  cases i with
  | one c => exact ClassChar.IsPlain.not_break h
  | range a b => simp [ClassItem.chars, h.1.not_break, h.2.not_break]

/-- A class whose members are spelled properly is read back. -/
theorem CharClass.readsBack {k : CharClass} (h : ∀ i ∈ k.items, i.IsPlain) : k.ReadsBack := by
  refine ⟨?_, fun f o => ?_⟩
  · have hitems : '\n' ∉ k.items.flatMap ClassItem.chars := fun hmem => by
      obtain ⟨i, hi, hc⟩ := List.mem_flatMap.mp hmem
      exact (h i hi).not_break hc
    rw [chars]
    split <;> simp [hitems]
  · have hopen : ∀ negated, (⟨negated, [], .none⟩ : ClassPart).Open := fun _ _ => nofun
    obtain ⟨k', hrun, hneg, hall⟩ := runs_classItems (f := f) (o := o) (hopen k.negated) h
    have hstart : Runs ⟨.between, f, o⟩ ('[' :: if k.negated then ['^'] else []) ⟨.cls ⟨k.negated, [], .none⟩, f, o⟩ := by
      cases k.negated <;> rfl
    have hend : strictStep ⟨.cls k', f, o⟩ ']' = some ⟨.between, { f with row := f.row ++ [.cls k.canonical] }, o⟩ := by
      have hcls : ({ negated := k'.negated, items := k'.allItems } : CharClass) = k.canonical := by
        rw [hneg, hall]
        rfl
      simp only [strictStep, step, ↓reduceIte, State.emit, hcls]
    exact (hstart.append hrun).append (.single hend)

/-- The signs of an offset: the dash at the end stands for itself. -/
theorem CharClass.readsBack_signs :
    CharClass.ReadsBack { items := [.one { char := '+' }, .one { char := '-', spelling := .bare }] } :=
  ⟨by decide, fun _ _ => rfl⟩

/-! ### Expressions -/

/-- What an expression may stand in: a body or a group, one of several alternatives, or a row. -/
inductive Place where
  | choice
  | row
  | item
deriving DecidableEq

namespace Expr

/-- The parts of the expression are nested as its text needs it, and spelled properly. -/
def Readable : Place → Expr → Prop
  | l, empty => l ≠ .item
  | _, literal _ => True
  | _, cls k => k.ReadsBack
  | _, rule name => name.toList ≠ [] ∧ ∀ c ∈ name.toList, isNameChar c = true
  | l, seq gap a b => l ≠ .item ∧ a.Readable .item ∧ b.Readable .row ∧ b ≠ empty ∧ (gap = .spaced ∨ ∀ n, a ≠ rule n)
  | l, alt _ a b => l = .choice ∧ a.Readable .row ∧ b.Readable .choice
  | _, group e => e.Readable .choice
  | _, repeated e times => e.Readable .item ∧ times.InOrder
  | _, raw _ => False

variable {a b e : Expr} {f : Frame} {o : List Frame}

theorem canonical_andThen (gap : Gap) (a b : Expr) : (andThen gap a b).canonical = andThen .spaced a.canonical b.canonical := by
  induction a with
  | seq _ x y _ ihy => rw [andThen, canonical, ihy, canonical, andThen]
  | empty | literal | cls | rule | alt | group | repeated | raw => rfl

theorem canonical_row (gap : Gap) (es : List Expr) : (row gap es).canonical = row .spaced (es.map canonical) := by
  fun_induction row gap es with
  | case1 => rfl
  | case2 e => rfl
  | case3 e es hne ih =>
    rw [canonical_andThen, ih, List.map_cons, row]
    simpa using hne

/-- The frame once the text of an expression has been read. -/
def addTo (f : Frame) : Expr → Frame
  | empty => f
  | seq _ a b => b.addTo { f with row := f.row ++ [a.canonical] }
  | alt _ a b =>
    let g := a.addTo f
    b.addTo { alts := g.alts ++ [row .spaced g.row], row := [] }
  | e => { f with row := f.row ++ [e.canonical] }

def parts : Expr → List Expr
  | empty => []
  | seq _ a b => a :: b.parts
  | e => [e]

theorem addTo_item (h : e.Readable .item) : e.addTo f = { f with row := f.row ++ [e.canonical] } := by
  cases e with
  | empty => exact absurd rfl h
  | seq => exact absurd rfl h.1
  | alt => cases h.1
  | _ => rfl

theorem addTo_row (h : e.Readable .row) : e.addTo f = { f with row := f.row ++ e.canonical.parts } := by
  induction e generalizing f with
  | empty => simp [addTo, canonical, parts]
  | seq gap a b _ ihb =>
    rw [addTo, ihb h.2.2.1, canonical, parts, List.append_assoc, List.singleton_append]
  | alt => cases h.1
  | _ => rfl

theorem canonical_not_seq (h : e.Readable .item) (gap : Gap) (x : Expr) : andThen gap e.canonical x = seq gap e.canonical x := by
  cases e with
  | seq => exact absurd rfl h.1
  | _ => rfl

/-- A row is made of its parts. -/
theorem row_parts (h : e.Readable .row) : row .spaced e.canonical.parts = e.canonical := by
  induction e with
  | seq gap a b _ ihb =>
    have hparts : b.canonical.parts ≠ [] := by
      cases b with
      | empty => exact absurd rfl h.2.2.2.1
      | _ => exact List.cons_ne_nil _ _
    rw [canonical, parts, row, ihb h.2.2.1, canonical_not_seq h.2.1]
    exact hparts
  | alt => cases h.1
  | _ => rfl

/-- The frame holds the expression once its text has been read. -/
theorem addTo_choice (h : e.Readable .choice) (hrow : f.row = []) :
    ∃ as r, e.addTo f = ⟨f.alts ++ as, r⟩ ∧ oneOf .spaced (as ++ [row .spaced r]) = e.canonical := by
  induction e generalizing f with
  | alt gap a b _ ihb =>
    obtain ⟨as, r, hadd, hone⟩ := ihb (f := ⟨f.alts ++ [a.canonical], []⟩) h.2.2 rfl
    refine ⟨a.canonical :: as, r, ?_, ?_⟩
    · rw [addTo, addTo_row h.2.1, hrow, List.nil_append, row_parts h.2.1, hadd, List.append_assoc, List.singleton_append]
    · rw [List.cons_append, oneOf, hone, canonical]
      exact List.append_ne_nil_of_right_ne_nil as (List.cons_ne_nil _ _)
  | seq gap a b =>
    have hr : (seq gap a b).Readable .row := ⟨nofun, h.2⟩
    refine ⟨[], _, ?_, row_parts hr⟩
    rw [addTo_row hr, hrow, List.nil_append, List.append_nil]
  | empty =>
    refine ⟨[], [], ?_, rfl⟩
    rw [addTo, List.append_nil, ← hrow]
  | literal | cls | rule | group | repeated | raw =>
    refine ⟨[], _, (congrArg (Frame.mk · _) (List.append_nil f.alts)).symm, ?_⟩
    rw [hrow]
    rfl

theorem close_addTo (h : e.Readable .choice) : (e.addTo {}).close = e.canonical := by
  obtain ⟨as, r, hadd, hone⟩ := addTo_choice (f := {}) h rfl
  rw [hadd, Frame.close, List.nil_append, hone]

/-- The text of a row goes on behind its first part. -/
theorem reads_seq {gap : Gap} (ha : a.Readable .item) (hgap : gap = .spaced ∨ ∀ n, a ≠ rule n)
    (hreads : Reads ⟨.between, f, o⟩ a.chars (a.addTo f))
    (hruns : (∀ n, a ≠ rule n) → Runs ⟨.between, f, o⟩ a.chars ⟨.between, a.addTo f, o⟩)
    (hb : Reads ⟨.between, a.addTo f, o⟩ b.chars (b.addTo (a.addTo f))) :
    Reads ⟨.between, f, o⟩ (seq gap a b).chars ((seq gap a b).addTo f) := by
  rw [addTo, ← addTo_item ha]
  cases gap with
  | spaced => exact .prepend (hreads.runs_cons (by decide) rfl) hb
  | tight =>
    have hne := hgap.resolve_left nofun
    rw [chars, seqMark, List.append_nil]
    exact .prepend (hruns hne) hb

/-- The text of alternatives goes on behind the first one. -/
theorem reads_alt {gap : Gap} (hreads : Reads ⟨.between, f, o⟩ a.chars (a.addTo f))
    (hb : Reads ⟨.between, ⟨(a.addTo f).alts ++ [row .spaced (a.addTo f).row], []⟩, o⟩ b.chars
      (b.addTo ⟨(a.addTo f).alts ++ [row .spaced (a.addTo f).row], []⟩)) :
    Reads ⟨.between, f, o⟩ (alt gap a b).chars ((alt gap a b).addTo f) := by
  have hbar : begin ⟨.between, a.addTo f, o⟩ '|' =
      some ⟨.between, ⟨(a.addTo f).alts ++ [row .spaced (a.addTo f).row], []⟩, o⟩ := rfl
  have hblank : ∀ g : Frame, Runs ⟨.between, g, o⟩ [' '] ⟨.between, g, o⟩ := fun _ => rfl
  rw [addTo, chars]
  cases gap with
  | tight => exact .prepend (hreads.runs_cons (by decide) hbar) hb
  | spaced =>
    by_cases he : a = empty
    · subst he
      have hrun : Runs ⟨.between, f, o⟩ ['|', ' '] ⟨.between, ⟨f.alts ++ [row .spaced f.row], []⟩, o⟩ := rfl
      exact .prepend hrun hb
    · have hmark : altMark .spaced a = [' ', '|', ' '] := by
        cases a <;> first | exact absurd rfl he | rfl
      have hopen : Runs ⟨.between, f, o⟩ (a.chars ++ [' ']) ⟨.between, a.addTo f, o⟩ := hreads.runs_cons (by decide) rfl
      have hrun := (hopen.append (.single (show strictStep _ '|' = _ from hbar))).append (hblank _)
      rw [hmark]
      refine .prepend ?_ hb
      simpa using hrun

/-- The text of an expression takes the reader to the frame with the expression added. -/
theorem Readable.reads {l : Place} (h : e.Readable l) (f : Frame) (o : List Frame) :
    Reads ⟨.between, f, o⟩ e.chars (e.addTo f) ∧
      (e.Readable .item → (∀ n, e ≠ rule n) → Runs ⟨.between, f, o⟩ e.chars ⟨.between, e.addTo f, o⟩) := by
  induction e generalizing l f o with
  | empty => exact ⟨.of_runs .nil, fun h => absurd rfl h⟩
  | literal s => exact ⟨.of_runs (runs_literal s), fun _ _ => runs_literal s⟩
  | cls k => exact ⟨.of_runs (h.runs f o), fun _ _ => h.runs f o⟩
  | rule n => exact ⟨reads_name h.1 h.2, fun _ hne => absurd rfl (hne n)⟩
  | seq gap a b iha ihb =>
    obtain ⟨-, ha, hb, -, hgap⟩ := h
    refine ⟨reads_seq ha hgap (iha ha f o).1 ((iha ha f o).2 ha) (ihb hb _ o).1, fun h => absurd rfl h.1⟩
  | alt gap a b iha ihb =>
    obtain ⟨-, ha, hb⟩ := h
    exact ⟨reads_alt (iha ha f o).1 (ihb hb _ o).1, fun h => by cases h.1⟩
  | group e ih =>
    have hopen : Runs ⟨.between, f, o⟩ ['('] ⟨.between, {}, f :: o⟩ := rfl
    have hclose : begin ⟨.between, e.addTo {}, f :: o⟩ ')' = some ⟨.between, (group e).addTo f, o⟩ := by
      rw [begin, close_addTo h]
      rfl
    have hrun : Runs ⟨.between, f, o⟩ (group e).chars ⟨.between, (group e).addTo f, o⟩ :=
      hopen.append ((ih h {} (f :: o)).1.runs_cons (by decide) hclose)
    exact ⟨.of_runs hrun, fun _ _ => hrun⟩
  | repeated e times ih =>
    have hreads := (ih h.1 f o).1
    rw [addTo_item h.1] at hreads
    have hrun := runs_times h.2 hreads
    exact ⟨.of_runs hrun, fun _ _ => hrun⟩
  | raw s => exact h.elim

end Expr

theorem readExpr_of_readStrictly {cs : List Char} {e : Expr} (h : readStrictly cs = some e) : readExpr cs = some e := by
  obtain ⟨s, hrun, hend⟩ := Option.bind_eq_some_iff.mp h
  rw [readExpr, Runs.lenient hrun, Option.bind_some, hend]

/-- A proper expression is read back from its text, up to its blanks and the spelling of its classes. -/
theorem readStrictly_chars {e : Expr} (h : e.Readable .choice) : readStrictly e.chars = some e.canonical := by
  obtain ⟨s, hrun, hend, -⟩ := (h.reads {} []).1
  rw [readStrictly, show e.chars.foldlM strictStep {} = some s from hrun, Option.bind_some, finish, hend]
  exact congrArg some (Expr.close_addTo h)

theorem readExpr_chars {e : Expr} (h : e.Readable .choice) : readExpr e.chars = some e.canonical :=
  readExpr_of_readStrictly (readStrictly_chars h)

/-! ### Rule tables -/

/-- Besides quotes, backslashes and the letters of escapes, a literal holds the characters of its text that need no escape. -/
theorem mem_literalText_iff {x : Char} (hx : x ∉ ['"', '\\', 'n', 'r', 't']) {cs : List Char} :
    x ∈ literalText cs ↔ x ∈ cs ∧ x ∉ ['\n', '\r', '\t'] := by
  simp only [List.mem_cons, List.not_mem_nil, or_false, not_or] at hx ⊢
  have hchar : ∀ c, x ∈ escapeInLiteral c ↔ c = x ∧ c ≠ '\n' ∧ c ≠ '\r' ∧ c ≠ '\t' := by
    intro c
    rw [escapeInLiteral]
    split_ifs with hmark hquote hbreak hreturn htab
    · subst hmark; simp [hx, Ne.symm hx.2.1]
    · subst hquote; simp [hx, Ne.symm hx.1]
    · subst hbreak; simp [hx]
    · subst hreturn; simp [hx]
    · subst htab; simp [hx]
    · simp [hbreak, hreturn, htab, eq_comm]
  simp [literalText, hchar, hx]

theorem break_not_mem_toString (n : Nat) : '\n' ∉ (toString n).toList := fun h => by
  have := isDigit_of_mem_toString h
  revert this
  decide

theorem Times.InOrder.not_break {times : Times} (h : times.InOrder) : '\n' ∉ times.chars := by
  cases times with
  | optional => decide
  | some => decide
  | exactly n =>
    have := break_not_mem_toString n
    simpa [chars] using this
  | between min max =>
    obtain ⟨max, rfl⟩ := Int.eq_ofNat_of_zero_le ((Int.natCast_nonneg min).trans h)
    have hmax : toString (max : Int) = toString max := rfl
    have := And.intro (break_not_mem_toString min) (break_not_mem_toString max)
    rw [chars, hmax]
    simpa using this

/-- The text of a proper expression is on one line. -/
theorem Expr.Readable.not_break {l : Place} {e : Expr} (h : e.Readable l) : '\n' ∉ e.chars := by
  induction e generalizing l with
  | empty => exact List.not_mem_nil
  | literal s =>
    intro h
    exact absurd ((mem_literalText_iff (by decide)).mp h).2 (by decide)
  | cls k => exact CharClass.ReadsBack.not_break h
  | rule n =>
    intro hn
    have := h.2 _ hn
    revert this
    decide
  | seq gap a b iha ihb =>
    have hmark : '\n' ∉ seqMark gap := by cases gap <;> decide
    simp [chars, iha h.2.1, ihb h.2.2.1, hmark]
  | alt gap a b iha ihb =>
    have hmark : '\n' ∉ altMark gap a := by
      unfold altMark
      split <;> decide
    simp [chars, iha h.2.1, ihb h.2.2, hmark]
  | group e ih => simp [chars, ih h]
  | repeated e times ih => simp [chars, ih h.1, h.2.not_break]
  | raw s => exact h.elim

/-- The text can be the name of a rule. -/
def IsName (s : String) : Prop := s.toList ≠ [] ∧ ∀ c ∈ s.toList, isNameChar c = true

instance : DecidablePred IsName := fun s =>
  decidable_of_iff (s.toList ≠ [] ∧ s.toList.all isNameChar = true) (and_congr Iff.rfl List.all_eq_true)

namespace RuleTable

/-- The names and the bodies of the rules are proper. -/
def Proper (t : RuleTable) : Prop := ∀ r ∈ t.rules, IsName r.1 ∧ r.2.Readable .choice

/-- The table with its bodies as they are read back. -/
def canonical (t : RuleTable) : RuleTable := ⟨t.rules.map fun r => (r.1, r.2.canonical)⟩

theorem ruleText_toList (r : Rule) : (ruleText r).toList = r.1.toList ++ " ::= ".toList ++ r.2.chars := by
  simp [ruleText, Expr.render]

theorem readRule_ruleText {r : Rule} (hn : IsName r.1) (hb : r.2.Readable .choice) :
    readRule (ruleText r) = some (r.1, r.2.canonical) := by
  have htake : (ruleText r).toList.takeWhile isNameChar = r.1.toList := by
    rw [ruleText_toList, List.append_assoc, List.takeWhile_append_of_pos hn.2]
    simp [isNameChar]
  have hdrop : (ruleText r).toList.dropWhile isNameChar = " ::= ".toList ++ r.2.chars := by
    rw [ruleText_toList, List.append_assoc, List.dropWhile_append_of_pos hn.2]
    simp [isNameChar]
  rw [readRule, htake, hdrop, Text.dropStart?_append]
  simp [readExpr_chars hb]

theorem break_not_mem_ruleText {r : Rule} (hn : IsName r.1) (hb : r.2.Readable .choice) : '\n' ∉ (ruleText r).toList := by
  have hname : '\n' ∉ r.1.toList := fun h => by
    have := hn.2 _ h
    revert this
    decide
  simp [ruleText_toList, hname, hb.not_break]

/-- The lines of a proper grammar are its rules. -/
theorem pieces_render {t : RuleTable} (hne : t.rules ≠ []) (h : t.Proper) :
    Text.pieces '\n' t.render = t.rules.map ruleText := by
  refine (Text.pieces_intercalate_eq_iff (by simpa using hne)).mpr ?_
  rw [List.forall_mem_map]
  exact fun r hr => break_not_mem_ruleText (h r hr).1 (h r hr).2

/-- The lines that the rules make, as they are read. -/
def readLines (rules : List Rule) : Option (List Rule) :=
  (rules.flatMap fun r => Text.pieces '\n' (ruleText r)).mapM readRule

/-- The text of a table is read rule by rule. -/
theorem readRules_render_eq {t : RuleTable} (hne : t.rules ≠ []) : readRules t.render = (readLines t.rules).map mk := by
  have hpieces : Text.pieces '\n' t.render = (t.rules.map ruleText).flatMap (Text.pieces '\n') :=
    Text.pieces_intercalate (by simpa using hne)
  rw [readRules, hpieces, List.flatMap_map, readLines]

theorem readLines_append {rules more read : List Rule} :
    readLines (rules ++ more) = some read ↔
      ∃ first rest, readLines rules = some first ∧ readLines more = some rest ∧ read = first ++ rest := by
  rw [readLines, List.flatMap_append, List.mapM_append]
  simp only [Option.bind_eq_bind, Option.bind_eq_some_iff, Option.pure_def, Option.some.injEq]
  constructor
  · rintro ⟨first, hfirst, rest, hrest, rfl⟩
    exact ⟨first, rest, hfirst, hrest, rfl⟩
  · rintro ⟨first, rest, hfirst, hrest, rfl⟩
    exact ⟨first, hfirst, rest, hrest, rfl⟩

/-- What stands before some rules and behind them makes no difference to how they are read. -/
theorem readRules_parts {first between rest read₁ read₂ read₃ : List Rule} (hne : first ≠ [])
    (h₁ : readLines first = some read₁) (h₂ : readLines between = some read₂) (h₃ : readLines rest = some read₃) :
    readRules (render ⟨first ++ between ++ rest⟩) = some ⟨read₁ ++ read₂ ++ read₃⟩ := by
  have hall : readLines (first ++ between ++ rest) = some (read₁ ++ read₂ ++ read₃) :=
    readLines_append.mpr ⟨_, _, readLines_append.mpr ⟨_, _, h₁, h₂, rfl⟩, h₃, rfl⟩
  rw [readRules_render_eq (by simp [hne]), hall]
  rfl

/-- Proper rules are read as they are, each from one line. -/
theorem readLines_proper {rules : List Rule} (h : ∀ r ∈ rules, IsName r.1 ∧ r.2.Readable .choice) :
    readLines rules = some (rules.map fun r => (r.1, r.2.canonical)) := by
  induction rules with
  | nil => rfl
  | cons r rules ih =>
    obtain ⟨hname, hbody⟩ := h r List.mem_cons_self
    have hrest := ih fun r hr => h r (List.mem_cons_of_mem _ hr)
    rw [readLines] at hrest ⊢
    rw [List.flatMap_cons, Text.pieces_of_not_mem (break_not_mem_ruleText hname hbody), List.singleton_append, List.mapM_cons,
      readRule_ruleText hname hbody, hrest]
    rfl

/-- A proper grammar is read back from its text. -/
theorem readRules_render {t : RuleTable} (hne : t.rules ≠ []) (h : t.Proper) : readRules t.render = some t.canonical := by
  rw [readRules_render_eq hne, readLines_proper h]
  rfl

end RuleTable

/-! ### What is read means the same -/

theorem ClassItem.covers_canonical (i : ClassItem) : i.canonical.covers = i.covers := by
  cases i <;> rfl

theorem CharClass.admits_canonical (k : CharClass) (c : Char) : k.canonical.admits c = k.admits c := by
  simp only [admits, canonical, List.any_map]
  congr 2
  funext i
  rw [Function.comp_apply, ClassItem.covers_canonical]

namespace Expr
variable {body : String → Option Expr} {e : Expr} {w : List Char}

theorem Derives.canonical (h : Derives body e w) : Derives (fun n => (body n).map Expr.canonical) e.canonical w := by
  induction h with
  | empty => exact .empty
  | literal s => exact .literal s
  | cls h => exact .cls (by rwa [CharClass.admits_canonical])
  | rule h _ ih => exact .rule (by rw [h]; rfl) ih
  | seq _ _ ihs iht => exact .seq ihs iht
  | altFirst _ ih => exact .altFirst ih
  | altRest _ ih => exact .altRest ih
  | group _ ih => exact .group ih
  | repeated hn _ ih => exact .repeated hn ih

theorem Derives.of_canonical (h : Derives (fun n => (body n).map Expr.canonical) e.canonical w) : Derives body e w := by
  generalize he : e.canonical = x at h
  induction h generalizing e with
  | empty => cases e <;> cases he; exact .empty
  | literal s => cases e <;> cases he; exact .literal s
  | cls h =>
    cases e <;> cases he
    exact .cls (by rwa [CharClass.admits_canonical] at h)
  | rule h _ ih =>
    cases e <;> cases he
    obtain ⟨b, hb, rfl⟩ := Option.map_eq_some_iff.mp h
    exact .rule hb (ih rfl)
  | seq _ _ ihs iht => cases e <;> cases he; exact .seq (ihs rfl) (iht rfl)
  | altFirst _ ih => cases e <;> cases he; exact .altFirst (ih rfl)
  | altRest _ ih => cases e <;> cases he; exact .altRest (ih rfl)
  | group _ ih => cases e <;> cases he; exact .group (ih rfl)
  | repeated hn _ ih =>
    cases e <;> cases he
    exact .repeated hn fun t ht => ih t ht rfl

theorem derives_canonical :
    Derives (fun n => (body n).map Expr.canonical) e.canonical w ↔ Derives body e w := ⟨.of_canonical, .canonical⟩

end Expr

theorem RuleTable.body?_canonical (t : RuleTable) (n : String) : t.canonical.body? n = (t.body? n).map Expr.canonical := by
  obtain ⟨rules⟩ := t
  induction rules with
  | nil => rfl
  | cons r rules ih =>
    obtain ⟨name, e⟩ := r
    simp only [RuleTable.body?, canonical, List.map_cons, List.lookup_cons] at ih ⊢
    split
    · rfl
    · exact ih

theorem RuleTable.derives_canonical {t : RuleTable} {e : Expr} {w : List Char} :
    Expr.Derives t.canonical.body? e.canonical w ↔ Expr.Derives t.body? e w := by
  have hbody : t.canonical.body? = fun n => (t.body? n).map Expr.canonical := funext t.body?_canonical
  rw [hbody]
  exact Expr.derives_canonical

end RecordGrammar
