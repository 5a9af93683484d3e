import RecordGrammar.Shape.Basic

/-!
# Properties of all shapes in a shape
-/

namespace RecordGrammar.Shape

mutual

/-- Whether the shape and all shapes in it satisfy `p`. -/
def every (p : Shape → Bool) : Shape → Bool
  | array element lo hi name => p (array element lo hi name) && element.every p
  | object name fields => p (object name fields) && everyField p fields
  | s => p s

/-- Whether the types of the fields and all shapes in them satisfy `p`. -/
def everyField (p : Shape → Bool) : List (Field Shape) → Bool
  | [] => true
  | ⟨_, type, _⟩ :: rest => type.every p && everyField p rest

end

variable {p : Shape → Bool}

theorem every_self {s : Shape} (h : s.every p = true) : p s = true := by
  cases s with
  | array | object =>
    rw [every, Bool.and_eq_true] at h
    exact h.1
  | string | scalar | enum | custom => rwa [every] at h <;> exact nofun

theorem every_element {element : Shape} {lo hi : Option Nat} {name : String}
    (h : (array element lo hi name).every p = true) : element.every p = true := by
  rw [every, Bool.and_eq_true] at h
  exact h.2

theorem everyField_of_mem {fields : List (Field Shape)} (h : everyField p fields = true) :
    ∀ f ∈ fields, f.type.every p = true := by
  induction fields with
  | nil => exact nofun
  | cons f rest ih =>
    obtain ⟨_, _, _⟩ := f
    rw [everyField, Bool.and_eq_true] at h
    intro g hg
    rcases List.mem_cons.mp hg with rfl | hg
    · exact h.1
    · exact ih h.2 g hg

theorem everyField_tail {f : Field Shape} {rest : List (Field Shape)} (h : everyField p (f :: rest) = true) :
    everyField p rest = true := by
  obtain ⟨_, _, _⟩ := f
  rw [everyField, Bool.and_eq_true] at h
  exact h.2

theorem every_fields {name : String} {fields : List (Field Shape)} (h : (object name fields).every p = true) :
    everyField p fields = true := by
  rw [every, Bool.and_eq_true] at h
  exact h.2

mutual

theorem every_mono {q : Shape → Bool} (hpq : ∀ s, p s = true → q s = true) :
    ∀ {s : Shape}, s.every p = true → s.every q = true
  | array element lo hi name, h => by
    rw [every, Bool.and_eq_true] at h ⊢
    exact ⟨hpq _ h.1, every_mono hpq h.2⟩
  | object name fields, h => by
    rw [every, Bool.and_eq_true] at h ⊢
    exact ⟨hpq _ h.1, everyField_mono hpq h.2⟩
  | string _, h | scalar _ _, h | enum _ _, h | custom _, h => hpq _ h

theorem everyField_mono {q : Shape → Bool} (hpq : ∀ s, p s = true → q s = true) :
    ∀ {fields : List (Field Shape)}, everyField p fields = true → everyField q fields = true
  | [], _ => rfl
  | ⟨_, type, _⟩ :: rest, h => by
    rw [everyField, Bool.and_eq_true] at h ⊢
    exact ⟨every_mono hpq h.1, everyField_mono hpq h.2⟩

end

/-- Whether the compilers know shapes of this kind. -/
def isKnown : Shape → Bool
  | custom _ => false
  | _ => true

end RecordGrammar.Shape
