import RecordGrammar.Proofs.Grammar.ItemRule
import RecordGrammar.Proofs.Shape.Every

/-!
# Segments that keep rules apart

If no field's name gives a segment that ends like the name of a rule, then the name of every rule for elements tells
which path it was made for: `root` or the path of a field, and how many arrays stand between. `Settled` is the
invariant: that path belongs to a field whose own rule is there, or to a place the run is still in. A new field's path
is neither, so no array finds a rule (`unshared_of_segments`).
-/

namespace RecordGrammar

/-- Whether the segment of a field's name is one that the names of rules end in. -/
def Segment.isReserved (name : String) : Bool :=
  let s := Segment.chars name.toList
  s = ['k', 'v'] || s = ['i', 't', 'e', 'm'] || ['-', 'i', 't', 'e', 'm'].isSuffixOf s

/-- Whether none of the fields has a name with such a segment. -/
def Shape.hasFreeSegments : Shape → Bool
  | .object _ fields => fields.all fun f => !Segment.isReserved f.name
  | _ => true

/-! ### Paths and endings -/

/-- The path of the elements, `n` arrays deep, at a path. -/
def itemPath (base : String) : Nat → String
  | 0 => base
  | n + 1 => itemName (itemPath base n)

/-- The path is that of the elements of an array. -/
def EndsItem (path : String) : Prop := ∃ p, path = itemName p

theorem under_itemPath (base : String) (n : Nat) : Under base (itemPath base (n + 1)) := by
  induction n with
  | zero => exact .item base
  | succ n ih => exact ih.trans (.item _)

/-- The base of a path and the depth below it can be read off the path. -/
theorem itemPath_inj {b c : String} {m n : Nat} (hb : ¬ EndsItem b) (hc : ¬ EndsItem c)
    (h : itemPath b m = itemPath c n) : b = c ∧ m = n := by
  induction m generalizing n with
  | zero =>
    cases n with
    | zero => exact ⟨h, rfl⟩
    | succ n => exact absurd ⟨_, h⟩ hb
  | succ m ih =>
    cases n with
    | zero => exact absurd ⟨_, h.symm⟩ hc
    | succ n =>
      obtain ⟨rfl, rfl⟩ := ih (itemName_inj.mp h)
      exact ⟨rfl, rfl⟩

theorem not_endsItem_append_toString (s : String) (n : Nat) : ¬ EndsItem (s ++ toString n) := by
  rintro ⟨p, h⟩
  have hne : Nat.toDigits 10 n ≠ [] := by
    rw [← Nat.toList_repr]
    exact fun h => by simpa using congrArg List.length h
  have h : s.toList ++ Nat.toDigits 10 n = p.toList ++ ['-', 'i', 't', 'e', 'm'] := by
    rw [← Nat.toList_repr, ← Nat.toString_eq_repr, ← String.toList_append, h]
    simp
  have hlast : (Nat.toDigits 10 n).getLast? = some 'm' := by
    have := congrArg List.getLast? h
    rw [List.getLast?_append, List.getLast?_append, List.getLast?_eq_some_getLast hne] at this
    rw [List.getLast?_eq_some_getLast hne]
    simpa using this
  have := Nat.isDigit_of_mem_toDigits (by decide) (by decide) (List.mem_of_getLast? hlast)
  simp [Char.isDigit] at this

/-- A field whose segment is not reserved has no path that ends like that of an array's elements. -/
theorem not_endsItem_fieldPath {name : String} (h : Segment.isReserved name = false) (t : RuleTable) (used : List String)
    (path : String) : ¬ EndsItem (fieldPath t used path name) := by
  obtain ⟨i, hi⟩ := freePath_eq t used (path ++ "-" ++ Segment.ofName name)
  rw [fieldPath, hi, pathCandidate]
  split
  · rintro ⟨p, hp⟩
    have hp : path.toList ++ '-' :: Segment.chars name.toList = p.toList ++ ['-', 'i', 't', 'e', 'm'] := by
      simpa [Segment.ofName] using congrArg String.toList hp
    simp only [Segment.isReserved, Bool.or_eq_false_iff, decide_eq_false_iff_not] at h
    obtain ⟨⟨-, hitem⟩, hend⟩ := h
    have hend : ¬ ['-', 'i', 't', 'e', 'm'] <:+ Segment.chars name.toList := fun hs => by
      rw [List.isSuffixOf_iff_suffix.mpr hs] at hend
      cases hend
    rcases List.suffix_or_suffix_of_suffix (List.suffix_append p.toList ['-', 'i', 't', 'e', 'm'])
      (hp ▸ List.suffix_append path.toList ('-' :: Segment.chars name.toList)) with hs | hs
    · rcases List.suffix_cons_iff.mp hs with hs | hs
      · exact hitem (List.cons.inj hs).2.symm
      · exact hend hs
    · rcases List.suffix_cons_iff.mp hs with hs | hs
      · exact hitem (List.cons.inj hs).2
      · have := hs.mem List.mem_cons_self
        simp at this
  · exact not_endsItem_append_toString _ _

/-! ### The invariant -/

/-- Each rule for elements is made for a base that is one of the pending paths or has a key rule. -/
def Settled (pending : List String) (t : RuleTable) : Prop :=
  ∀ n, itemName n ∈ t.names → ∃ b k, n = itemPath b k ∧ ¬ EndsItem b ∧ (b ∈ pending ∨ keyName b ∈ t.names)

namespace Settled
variable {pending : List String} {t : RuleTable} {b p : String} {k : Nat} {body : Expr}

theorem cons (h : Settled pending t) (p : String) : Settled (p :: pending) t := fun n hn => by
  obtain ⟨b, k, rfl, hb, hp⟩ := h n hn
  exact ⟨b, k, rfl, hb, hp.imp (List.mem_cons_of_mem p) id⟩

/-- The rule of a path whose base is pending may be added. -/
theorem ensure_path (h : Settled pending t) (hb : ¬ EndsItem b) (hmem : b ∈ pending) :
    Settled pending (t.ensure (itemPath b k) body) := fun n hn => by
  rcases RuleTable.mem_names_ensure.mp hn with hn | hn
  · obtain ⟨c, j, rfl, hc, hp⟩ := h n hn
    exact ⟨c, j, rfl, hc, hp.imp id fun h => RuleTable.mem_names_ensure.mpr (.inl h)⟩
  · cases k with
    | zero => exact absurd ⟨n, hn.symm⟩ hb
    | succ k => exact ⟨b, k, itemName_inj.mp hn, hb, .inl hmem⟩

/-- Once a field has its key rule, its path need not be pending any more. -/
theorem push_keyName (h : Settled (p :: pending) t) : Settled pending (t.push (keyName p) body) := fun n hn => by
  rcases RuleTable.mem_names_push.mp hn with hn | hn
  · obtain ⟨c, j, rfl, hc, hp⟩ := h n hn
    refine ⟨c, j, rfl, hc, ?_⟩
    rcases hp with hp | hp
    · rcases List.mem_cons.mp hp with rfl | hp
      · exact .inr (RuleTable.mem_names_push.mpr (.inr rfl))
      · exact .inl hp
    · exact .inr (RuleTable.mem_names_push.mpr (.inl hp))
  · exact absurd hn itemName_ne_keyName

/-- A base that is not pending and has no key rule has no rules for elements either. -/
theorem not_mem_names (h : Settled pending t) (hb : ¬ EndsItem b) (hmem : b ∉ pending) (hkey : keyName b ∉ t.names) (k : Nat) :
    itemPath b (k + 1) ∉ t.names := fun hn => by
  obtain ⟨c, j, he, hc, hp⟩ := h _ hn
  obtain ⟨rfl, -⟩ := itemPath_inj hb hc he
  exact hp.elim hmem hkey

end Settled

variable {settings : GrammarSettings}

mutual

theorem Compiles.settled : ∀ {s : Shape} {path b : String} {t t' : RuleTable} {e : Expr} {pending : List String} {k : Nat},
    Compiles settings s path t e t' → s.every Shape.hasFreeSegments = true → path = itemPath b k → ¬ EndsItem b →
    b ∈ pending → Settled pending t → Settled pending t'
  | _, _, _, _, _, _, _, _, .namedString _, _, hpath, hb, hmem, hs => by
    subst hpath
    exact hs.ensure_path hb hmem
  | _, _, _, _, _, _, _, _, .plainString _, _, _, _, _, hs => hs
  | _, _, _, _, _, _, _, _, .scalar, _, _, _, _, hs => hs
  | _, _, _, _, _, _, _, _, .enum, _, _, _, _, hs => hs
  | _, _, _, _, _, _, _, _, .sharedArray _ _, _, _, _, _, hs => hs
  | _, _, b, _, _, _, pending, k, .array (u := t₁) _ helem _, hfree, hpath, hb, hmem, hs => by
    subst hpath
    have h₁ : Settled pending t₁ :=
      helem.settled (k := k + 1) (Shape.every_element hfree) rfl hb hmem hs
    split
    · exact h₁
    · exact h₁.ensure_path (k := k + 1) hb hmem
  | _, _, _, _, _, _, _, _, .object h, hfree, _, _, _, hs =>
    h.settled (Shape.every_fields hfree) (Shape.every_self hfree) hs

theorem CompilesFields.settled : ∀ {fields : List (Field Shape)} {path : String} {used keys pending : List String}
    {t t' : RuleTable}, CompilesFields settings fields path used t keys t' →
    Shape.everyField Shape.hasFreeSegments fields = true → (fields.all fun f => !Segment.isReserved f.name) = true →
    Settled pending t → Settled pending t'
  | _, _, _, _, _, _, _, .nil, _, _, hs => hs
  | f :: _, path, used, _, pending, t, _, .cons hvalue _ hrest, hfree, hall, hs => by
    rw [List.all_cons, Bool.and_eq_true, Bool.not_eq_true'] at hall
    have hb := not_endsItem_fieldPath hall.1 t used path
    have h₁ := hvalue.settled (k := 0) (Shape.everyField_of_mem hfree f List.mem_cons_self) rfl hb List.mem_cons_self
      (hs.cons _)
    exact hrest.settled (Shape.everyField_tail hfree) hall.2 h₁.push_keyName

end

theorem Reaches.settled {fields : List (Field Shape)} {path p : String} {used pending : List String} {t t₁ : RuleTable}
    {i : Nat} {f : Field Shape} (h : Reaches settings fields path used t i f p t₁)
    (hfree : Shape.everyField Shape.hasFreeSegments fields = true)
    (hall : (fields.all fun f => !Segment.isReserved f.name) = true) (hs : Settled pending t) :
    Settled pending t₁ ∧ ¬ EndsItem p := by
  induction h with
  | @head f _ path used t =>
    rw [List.all_cons, Bool.and_eq_true, Bool.not_eq_true'] at hall
    exact ⟨hs, not_endsItem_fieldPath hall.1 t used path⟩
  | @tail f _ _ path _ used t _ _ _ _ hvalue _ _ ih =>
    rw [List.all_cons, Bool.and_eq_true, Bool.not_eq_true'] at hall
    have hb := not_endsItem_fieldPath hall.1 t used path
    have h₁ := hvalue.settled (k := 0) (Shape.everyField_of_mem hfree f List.mem_cons_self) rfl hb List.mem_cons_self
      (hs.cons _)
    exact ih (Shape.everyField_tail hfree) hall.2 h₁.push_keyName

/-- The run stands at a path whose base is pending, no longer path is, and the base has no rules for elements yet. -/
structure Fresh (pending : List String) (path : String) (t : RuleTable) : Prop where
  settled : Settled pending t
  length_le : ∀ p ∈ pending, p.length ≤ path.length
  base : ∃ b k, path = itemPath b k ∧ ¬ EndsItem b ∧ b ∈ pending ∧ ∀ j, itemPath b (j + 1) ∉ t.names

theorem Visits.fresh {s s₁ : Shape} {path p : String} {t t₁ : RuleTable} {pos : Position} {pending : List String}
    (hv : Visits settings s path t pos s₁ p t₁) (hfree : s.every Shape.hasFreeSegments = true)
    (h : Fresh pending path t) : ∃ pending', Fresh pending' p t₁ := by
  induction hv generalizing pending with
  | here => exact ⟨pending, h⟩
  | @element _ _ _ _ _ path _ _ _ _ _ _ ih =>
    -- the base stays and the depth grows
    obtain ⟨b, k, rfl, hb, hmem, hnew⟩ := h.base
    have hlength : ∀ q ∈ pending, q.length ≤ (itemName (itemPath b k)).length := fun q hq =>
      Nat.le_trans (h.length_le q hq) (Nat.le_of_lt (Under.item _).length_lt)
    exact ih (Shape.every_element hfree) ⟨h.settled, hlength, b, k + 1, rfl, hb, hmem, hnew⟩
  | @field fields f _ _ path p _ _ t₁ _ _ _ hreach _ ih =>
    have hfields := Shape.every_fields hfree
    obtain ⟨hs, hb⟩ := hreach.settled hfields (Shape.every_self hfree) h.settled
    -- the field's path is a new base, longer than all that are pending
    have hlt : path.length < p.length := hreach.under.length_lt
    have hmem : p ∉ pending := fun hp => Nat.not_lt.mpr (h.length_le p hp) hlt
    have hlength : ∀ q ∈ p :: pending, q.length ≤ p.length := by
      intro q hq
      rcases List.mem_cons.mp hq with rfl | hq
      · exact Nat.le_refl _
      · exact Nat.le_trans (h.length_le q hq) (Nat.le_of_lt hlt)
    exact ih (Shape.everyField_of_mem hfields _ hreach.mem) ⟨hs.cons p, hlength, p, 0, rfl, hb, List.mem_cons_self,
      hs.not_mem_names hb hmem hreach.not_mem_names.2⟩

/-! ### The main result -/

theorem not_endsItem_root : ¬ EndsItem "root" := by
  rintro ⟨p, h⟩
  simpa using congrArg (·.toList.getLast?) h

theorem fresh_root : Fresh ["root"] "root" (seedTable settings) where
  settled n hn := by
    have := mem_names_seedTable hn
    simp only [List.mem_cons, List.not_mem_nil, or_false] at this
    rcases this with h | h | h | h | h <;> simpa using congrArg (·.toList.getLast?) h
  length_le p hp := Nat.le_of_eq (congrArg _ (List.mem_singleton.mp hp))
  base :=
    ⟨"root", 0, rfl, not_endsItem_root, List.mem_singleton_self _, fun j =>
      not_mem_seedTable_of_under (under_itemPath "root" j)⟩

/-- Where no field's segment is reserved, no array finds a rule. -/
theorem unshared_of_segments {shape : Shape} (hfree : shape.every Shape.hasFreeSegments = true) :
    Unshared settings shape "root" (seedTable settings) := fun pos element lo hi name p t₁ hv => by
  obtain ⟨pending, h⟩ := hv.fresh hfree fresh_root
  obtain ⟨b, k, rfl, -, -, hnew⟩ := h.base
  exact RuleTable.contains_eq_false_iff.mpr (hnew k)

end RecordGrammar
